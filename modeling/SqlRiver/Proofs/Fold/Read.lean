import SqlRiver.Proofs.Fold.Scan
import SqlRiver.Proofs.Literal.Scan
import SqlRiver.Query.Read

/-!
# Readers ignore letter case

A query, or what is wrong with a text, is folded by folding every text in it. A
reader that is handed the folded text gives the folded result. The quoted spans
of a query take no part in this, so readers are given tables without entries
here: such a table restores nothing.

Main definitions and statements:

* `Query.fold`, `ParseError.fold`, `foldResult`: folded results of readers.
* `bind_fold`: one reader behind another.
* `fold_readSelect`, `fold_readSources`, `fold_readJoins`: readers of clauses.
* `fold_readQuery`: a query of the folded text.
-/

namespace SqlRiver

open Text

/-! ## Folded results -/

/-- A column in lower case. -/
def Column.fold (column : Column) : Column :=
  ⟨column.expression.lower, column.aliasName.map lower⟩

/-- A condition in lower case. -/
def Condition.fold (condition : Condition) : Condition :=
  { condition with predicate := condition.predicate.lower }

mutual

/-- A query with all of its texts in lower case, without its quoted spans. -/
def Query.fold : Query → Query
  | { distinct, columns, source, joins, filter, groupBy, having, orderBy, limit,
      offset, depth, .. } =>
    { distinct, columns := columns.map Column.fold
      source := Source.fold source, joins := Join.foldAll joins
      filter := filter.map Condition.fold, groupBy := groupBy.map lower
      having := having.map Condition.fold, orderBy := orderBy.map lower
      limit := limit.map lower, offset := offset.map lower
      literals := .empty, depth }

/-- A source with all of its texts in lower case. -/
def Source.fold : Source → Source
  | .table name aliasName => .table name.lower (aliasName.map lower)
  | .subquery query aliasName =>
    .subquery (Query.fold query) (aliasName.map lower)

/-- A join with all of its texts in lower case. -/
def Join.fold : Join → Join
  | { kind, source, onPredicate, usingColumns } =>
    { kind, source := Source.fold source, onPredicate := onPredicate.map lower
      usingColumns := usingColumns.map lower }

/-- Joins with all of their texts in lower case. -/
def Join.foldAll : List Join → List Join
  | [] => []
  | join :: more => Join.fold join :: Join.foldAll more

end

/-- What is wrong, with the text that was found in lower case. -/
def ParseError.fold : ParseError → ParseError
  | .badAlias found => .badAlias found.lower
  | .noJoin found => .noJoin found.lower
  | .badModifier found => .badModifier found.lower
  | .badJoin found => .badJoin found.lower
  | .leftover found => .leftover found.lower
  | .unsupported word => .unsupported word.lower
  | e => e

/-- A result whose value is changed by `f`, or what is wrong in lower case. -/
def foldResult {α β : Type} (f : α → β) :
    Except ParseError α → Except ParseError β
  | .ok v => .ok (f v)
  | .error e => .error e.fold

/-- What a reader has read, changed by `f`, and the folded text that is left. -/
def foldRead {α β : Type} (f : α → β) (p : α × Text) : β × Text :=
  (f p.1, p.2.lower)

section Result

variable {α α' β β' : Type} {f : α → α'} {g : β → β'}

@[simp] theorem foldResult_ok (f : α → α') (v : α) :
    foldResult f (.ok v) = .ok (f v) :=
  rfl

@[simp] theorem foldResult_error (f : α → α') (e : ParseError) :
    foldResult f (.error e) = .error e.fold := rfl

@[simp] theorem foldRead_mk (f : α → α') (v : α) (t : Text) :
    foldRead f (v, t) = (f v, t.lower) :=
  rfl

/-- One step behind another, on a folded text. -/
theorem bind_fold {x : Except ParseError α} {x' : Except ParseError α'}
    {k : α → Except ParseError β} {k' : α' → Except ParseError β'}
    (hx : x' = foldResult f x) (hk : ∀ v, k' (f v) = foldResult g (k v)) :
    (x' >>= k') = foldResult g (x >>= k) := by
  subst hx
  cases x with
  | error e => rfl
  | ok v => exact hk v

end Result

theorem foldAll_eq_map : ∀ js : List Join, Join.foldAll js = js.map Join.fold
  | [] => rfl
  | j :: js => by rw [Join.foldAll, foldAll_eq_map js, List.map_cons]

section Readers

variable {literals : LiteralTable} {clause : Clause}

/-! ## Lists, conditions and expressions -/

theorem any_isEmpty_lower (ts : List Text) :
    (ts.map lower).any List.isEmpty = ts.any List.isEmpty := by
  rw [List.any_map]
  exact congrArg ts.any (funext isEmpty_lower)

/-- A folded list is read to the folded entries. -/
theorem fold_commaList (clause : Clause) (body : Text) :
    commaList clause body.lower =
      foldResult (List.map lower) (commaList clause body) := by
  simp only [commaList, trim_lower, isEmpty_lower, split_lower, pieces_lower,
    any_isEmpty_lower]
  split
  · rfl
  · split <;> rfl

/-- A trailing clause is read the same in either case. -/
theorem fold_readTrailing (clause : Clause) (t : Text) :
    readTrailing clause t.lower =
      foldResult (foldRead (Option.map lower)) (readTrailing clause t) := by
  simp only [readTrailing, aroundLast?_lower]
  cases aroundLast? clause.phrase t with
  | none => rfl
  | some p =>
    simp only [Option.map_some, lowerPair, trim_lower, isEmpty_lower]
    split <;> rfl

/-- The entries of `order by` are those in lower case. -/
theorem fold_readOrderBy (t : Text) :
    readOrderBy t.lower =
      foldResult (foldRead (List.map lower)) (readOrderBy t) := by
  simp only [readOrderBy, aroundLast?_lower]
  cases aroundLast? Clause.orderBy.phrase t with
  | none => rfl
  | some p =>
    refine bind_fold (fold_commaList .orderBy p.2) fun entries => ?_
    simp

/-- A clause has its body and what is behind it at the same places. -/
theorem bodyOf?_lower (clause : Clause) (ends : List Clause) (t : Text) :
    bodyOf? clause ends t.lower = (bodyOf? clause ends t).map lowerPair := by
  simp only [bodyOf?, stripWord?_lower, Option.map_map]
  refine congrArg (Option.map · _) (funext fun behind => ?_)
  simp [cutBefore_lower, lowerPair]

/-- The entries of `group by` are those in lower case. -/
theorem fold_readGroupBy (t : Text) :
    readGroupBy t.lower =
      foldResult (foldRead (List.map lower)) (readGroupBy t) := by
  simp only [readGroupBy, bodyOf?_lower]
  cases bodyOf? .groupBy [.having, .orderBy, .limit] t with
  | none => rfl
  | some p => exact bind_fold (fold_commaList .groupBy p.1) fun entries => rfl

theorem isOpen_lower (t : Text) : isOpen t.lower = isOpen t := by
  simp only [isOpen, countTop_lower]

/-- Predicates are put back together at the same places, by induction on the
divided pieces. -/
theorem regroup_lower :
    ∀ (current : Text) (rest : List (Text × Text)), regroup current.lower
      (rest.map lowerPair) = (regroup current rest).map lower
  | current, [] => rfl
  | current, (sep, piece) :: rest => by
    have hopen := regroup_lower (current ++ sep ++ piece) rest
    rw [lower_append, lower_append] at hopen
    rw [List.map_cons, lowerPair_mk, regroup, regroup, isOpen_lower, hopen,
      regroup_lower piece rest]
    split <;> rfl

/-- The conditions of a folded body are its folded conditions. -/
theorem fold_conditions (clause : Clause) (body : Text) :
    conditions clause body.lower =
      foldResult (List.map Condition.fold) (conditions clause body) := by
  have hpredicates (s : Split) : (regroup s.lower.first s.lower.rest).map
      Text.trim = ((regroup s.first s.rest).map Text.trim).map lower := by
    rw [Split.lower, regroup_lower, List.map_map, List.map_map]
    exact List.map_congr_left fun t _ => trim_lower t
  simp only [conditions, trim_lower, isEmpty_lower, split_lower, hpredicates,
    any_isEmpty_lower]
  split
  · rfl
  · split
    · rfl
    · rw [foldResult_ok, List.map_map, List.map_map (l := List.map Text.trim _)]
      rfl

/-- The conditions of `where` are those in lower case. -/
theorem fold_readFilter (t : Text) :
    readFilter t.lower =
      foldResult (foldRead (List.map Condition.fold)) (readFilter t) := by
  simp only [readFilter, bodyOf?_lower]
  cases bodyOf? .filter [.groupBy, .having, .orderBy, .limit] t with
  | none => rfl
  | some p => exact bind_fold (fold_conditions .filter p.1) fun conds => rfl

/-- The conditions of `having` are those in lower case. -/
theorem fold_readHaving (grouped : Bool) (t : Text) :
    readHaving grouped t.lower = foldResult (foldRead (List.map Condition.fold))
      (readHaving grouped t) := by
  simp only [readHaving, bodyOf?_lower]
  cases bodyOf? .having [.orderBy, .limit] t with
  | none => rfl
  | some p =>
    cases grouped with
    | false => rfl
    | true => exact bind_fold (fold_conditions .having p.1) fun conds => rfl

/-! ## The select list -/

theorem isDigit_eq (c : Char) :
    c.isDigit = decide (48 ≤ c.toNat ∧ c.toNat ≤ 57) := by
  simp only [Char.isDigit, UInt32.le_iff_toNat_le, Bool.decide_and]
  rfl

theorem isDigit_toLower (c : Char) : c.toLower.isDigit = c.isDigit := by
  rw [isDigit_eq, isDigit_eq, toNat_toLower]
  grind

theorem isAlphanum_toLower (c : Char) :
    c.toLower.isAlphanum = c.isAlphanum := by
  rw [Bool.eq_iff_iff, Char.isAlphanum, Char.isAlphanum, Bool.or_eq_true,
    Bool.or_eq_true, isDigit_toLower, isAlpha_iff, isAlpha_iff, toNat_toLower]
  grind

/-- A text is an alias in every case or in none. -/
theorem isAlias_lower (t : Text) : isAlias t.lower = isAlias t := by
  have hchar (c : Char) : isAliasChar c.toLower = isAliasChar c := by
    simp only [isAliasChar, isAlphanum_toLower, toLower_beq (d := '_') rfl,
      toLower_beq (d := '$') rfl]
  have hall (t : Text) : t.lower.all isAliasChar = t.all isAliasChar := by
    rw [Text.lower, List.all_map]
    exact congrArg t.all (funext hchar)
  cases t with
  | nil => rfl
  | cons c t =>
    show (!c.toLower.isDigit && (lower (c :: t)).all isAliasChar &&
      !isReserved (lower (c :: t))) = _
    rw [isDigit_toLower, hall, isReserved_lower]
    rfl

/-- An expression goes on before an alias in every case or in none. -/
theorem continues_lower (t : Text) : continues t.lower = continues t := by
  have hletters : ∀ d ∈ operatorChars, d.isAlpha = false := by decide
  have hop (c : Char) :
      operatorChars.contains c.toLower = operatorChars.contains c := by
    rw [Bool.eq_iff_iff, List.contains_iff_mem, List.contains_iff_mem]
    constructor
    · intro h
      rwa [(toLower_eq_iff (hletters _ h)).1 rfl]
    · intro h
      rwa [(toLower_eq_iff (hletters _ h)).2 rfl]
  have hlast (c : Option Char) : (c.map Char.toLower).any
      operatorChars.contains = c.any operatorChars.contains := by
    cases c with
    | none => rfl
    | some c => exact hop c
  rw [continues, continues, getLast?_lower, hlast, afterLast_lower rfl,
    ofWord?_lower]

/-- An alias behind `as` is found at the same place in lower case. -/
theorem explicitAlias?_lower (t : Text) :
    explicitAlias? t.lower = (explicitAlias? t).map lowerPair := by
  simp only [explicitAlias?, aroundLast?_lower]
  cases aroundLast? "as".toList t with
  | none => rfl
  | some p =>
    simp only [Option.map_some, lowerPair, trim_lower, isEmpty_lower,
      isAlias_lower]
    split <;> rfl

/-- An alias without `as` is found at the same place in lower case. -/
theorem implicitAlias?_lower (t : Text) :
    implicitAlias? t.lower = (implicitAlias? t).map lowerPair := by
  simp only [implicitAlias?, endsWith_lower (c := ')') rfl,
    cutLast_lower (c := ' ') rfl]
  split
  · rfl
  · cases Text.cutLast ' ' t with
    | none => rfl
    | some p =>
      simp only [Option.map_some, lowerPair, trimEnd_lower, isEmpty_lower,
        isAlias_lower, continues_lower]
      split <;> rfl

/-- A column in lower case is the column in lower case, when there is nothing to
restore. -/
theorem columnOf_lower (h : literals.literals = []) (t : Text) :
    columnOf .empty t.lower = (columnOf literals t).fold := by
  have hquote (name : Text) :
      isApostrophed .empty name.lower = isApostrophed literals name := by
    rw [isApostrophed, isApostrophed, LiteralTable.restore_entryless h,
      LiteralTable.restore_empty, head?_lower, map_toLower_beq rfl]
  have hsplit : (explicitAlias? t.lower).or (implicitAlias? t.lower) =
      ((explicitAlias? t).or (implicitAlias? t)).map lowerPair := by
    rw [explicitAlias?_lower, implicitAlias?_lower, Option.map_or]
  rw [columnOf, columnOf, splitAlias, splitAlias, hsplit]
  cases (explicitAlias? t).or (implicitAlias? t) with
  | none => rfl
  | some p =>
    simp only [Option.map_some, lowerPair, hquote]
    split <;> rfl

/-- `distinct` is taken off the columns in either case. -/
theorem stripDistinct_lower (t : Text) :
    stripDistinct t.lower =
      ((stripDistinct t).1, (stripDistinct t).2.lower) := by
  rw [stripDistinct, stripDistinct, stripWord?_lower]
  cases stripWord? "distinct".toList t with
  | none => rfl
  | some rest => simp [trimStart_lower]

/-- The flag of a select list and its columns, folded. -/
def foldSelect (p : Bool × List Column) : Bool × List Column :=
  (p.1, p.2.map Column.fold)

/-- The columns of a folded `select` are the folded columns. -/
theorem fold_readSelect (h : literals.literals = []) (t : Text) :
    readSelect .empty t.lower =
      foldResult (foldRead foldSelect) (readSelect literals t) := by
  simp only [readSelect, stripWord?_lower]
  cases stripWord? Clause.select.phrase t with
  | none => rfl
  | some behind =>
    simp only [Option.map_some, aroundFirst?_lower]
    cases aroundFirst? Clause.source.phrase behind with
    | none => rfl
    | some p =>
      simp only [Option.map_some, lowerPair, trim_lower, stripDistinct_lower,
        isEmpty_lower]
      split
      · rfl
      · refine bind_fold (fold_commaList .select _) fun entries => ?_
        have hcolumns : (entries.map lower).map (columnOf .empty) =
            (entries.map (columnOf literals)).map Column.fold := by
          rw [List.map_map, List.map_map]
          exact List.map_congr_left fun e _ => columnOf_lower h e
        simp [foldSelect, hcolumns]

/-! ## Sources -/

section Sources

variable {nested nested' : Nested} (hn : ∀ t,
  nested' (lower t) = foldResult Query.fold (nested t))

theorem fold_withAlias (s : Source) (name : Text) :
    (s.withAlias name).fold = s.fold.withAlias name.lower := by
  cases s <;> simp [Source.withAlias, Source.fold]

include hn in
/-- A source without an alias is read to the source in lower case. -/
theorem fold_readBare (clause : Clause) (t : Text) :
    readBare nested' clause t.lower =
      foldResult (foldRead Source.fold) (readBare nested clause t) := by
  simp only [readBare, isEmpty_lower, head?_lower,
    map_toLower_beq (d := '(') rfl, unwrap?_lower, namePosition_lower,
    take_lower, drop_lower, isReserved_lower, trim_lower]
  split
  · rfl
  · split
    · cases unwrap? t with
      | none => rfl
      | some p =>
        simp only [Option.map_some, lowerPair, trim_lower]
        refine bind_fold (hn _) fun query => ?_
        simp [Source.fold]
    · split
      · rfl
      · simp [Source.fold]

theorem aliasPosition_lower (ends : List Text) (t : Text) :
    aliasPosition ends t.lower = aliasPosition ends t := by
  rw [aliasPosition, aliasPosition, firstPosition?_lower, topPosition?_lower
    (fun c => toLower_beq (c := c) (d := ',') rfl), length_lower]

/-- The alias of a source is the alias in lower case, and the refusals are the
same. -/
theorem fold_sourceAlias (h : literals.literals = []) (region : Text) :
    sourceAlias .empty region.lower =
      foldResult (Option.map lower) (sourceAlias literals region) := by
  have hname (t : Text) : ((stripWord? "as".toList t.lower).map Text.trim).getD
      t.lower = (((stripWord? "as".toList t).map Text.trim).getD t).lower := by
    rw [stripWord?_lower]
    cases stripWord? "as".toList t <;> simp
  simp only [sourceAlias, trim_lower, isEmpty_lower, hname, isAlias_lower,
    LiteralTable.restore_entryless h, LiteralTable.restore_empty]
  split
  · rfl
  · split <;> rfl

include hn in
/-- A folded source is read to the folded source, with its alias. -/
theorem fold_readSource (h : literals.literals = []) (ends : List Text)
    (clause : Clause) (t : Text) :
    readSource nested' .empty ends clause t.lower = foldResult
      (foldRead Source.fold) (readSource nested literals ends clause t) := by
  refine bind_fold (fold_readBare hn clause t) fun ⟨source, behind⟩ => ?_
  simp only [foldRead_mk, aliasPosition_lower, take_lower, drop_lower,
    trim_lower]
  refine bind_fold (fold_sourceAlias h _) fun name => ?_
  cases name with
  | none => rfl
  | some name => simp [fold_withAlias]

include hn in
/-- The sources behind a comma are those in lower case, by induction on the
bound of the loop. -/
theorem fold_readMore (h : literals.literals = []) :
    ∀ (bound : Nat) (t : Text),
      readMore nested' .empty bound t.lower = foldResult
      (foldRead (List.map Join.fold)) (readMore nested literals bound t)
  | 0, t => rfl
  | bound + 1, t => by
    simp only [readMore, stripComma?_lower]
    cases t.stripComma? with
    | none => rfl
    | some behind =>
      refine bind_fold (fold_readSource hn h _ _ behind)
        fun ⟨source, rest⟩ => ?_
      refine bind_fold (fold_readMore h bound rest) fun ⟨more, rest⟩ => ?_
      simp [Join.fold]

/-- The sources behind `from`, folded. -/
def foldSources (p : Source × List Join) : Source × List Join :=
  (p.1.fold, p.2.map Join.fold)

include hn in
/-- The sources of a folded `from` are the folded sources. -/
theorem fold_readSources (h : literals.literals = []) (t : Text) :
    readSources nested' .empty t.lower =
      foldResult (foldRead foldSources) (readSources nested literals t) := by
  refine bind_fold (fold_readSource hn h _ _ t) fun ⟨source, rest⟩ => ?_
  simp only [foldRead_mk, length_lower]
  refine bind_fold (fold_readMore hn h rest.length rest) fun ⟨joins, rest⟩ => ?_
  simp [foldSources]

/-! ## Joins -/

/-- The words before `join` choose the same kind in either case, and the
refusals are the same. -/
theorem fold_joinKind (modifiers : Text) :
    joinKind modifiers.lower = foldResult id (joinKind modifiers) := by
  have hwords :
      (modifiers.words.map lower).map lower = modifiers.words.map lower := by
    rw [List.map_map]
    exact List.map_congr_left fun w _ => lower_lower w
  rw [joinKind, joinKind, words_lower, hwords]
  split <;> rfl

/-- The words before `join` start at the same position in lower case. -/
theorem modifiersStart_lower (piece : Text) : ∀ bound cut : Nat,
    modifiersStart piece.lower bound cut = modifiersStart piece bound cut
  | 0, cut => rfl
  | bound + 1, cut => by
    have hword : lastWord piece.lower cut = (lastWord piece cut).lower := by
      rw [lastWord, lastWord, take_lower, trimEnd_lower, afterLast_lower rfl]
    have hstart : lastWordStart piece.lower cut = lastWordStart piece cut := by
      simp only [lastWordStart, take_lower, trimEnd_lower,
        afterLast_lower (c := ' ') rfl, length_lower]
    rw [modifiersStart, modifiersStart, hword, hstart, isJoinModifier_lower,
      modifiersStart_lower piece bound]

theorem trailingModifiers_lower (piece : Text) :
    trailingModifiers piece.lower = lowerPair (trailingModifiers piece) := by
  simp only [trailingModifiers, modifiersStart_lower, length_lower, take_lower,
    drop_lower, trim_lower, lowerPair_mk]

/-- The columns of `using` are those in lower case. -/
theorem fold_usingList (columns : Text) :
    usingList columns.lower =
      foldResult (List.map lower) (usingList columns) := by
  rw [usingList, usingList, unwrap?_lower]
  cases unwrap? columns with
  | none => rfl
  | some p =>
    obtain ⟨inside, rest⟩ := p
    cases rest with
    | nil => exact fold_commaList .joinUsing inside
    | cons c rest => rfl

include hn in
/-- A folded join is read to the folded join. -/
theorem fold_readJoin (h : literals.literals = []) (kind : JoinKind)
    (body : Text) :
    readJoin nested' .empty kind body.lower =
      foldResult Join.fold (readJoin nested literals kind body) := by
  rw [readJoin, readJoin, trim_lower]
  refine bind_fold (fold_readSource hn h _ _ _) fun ⟨source, rest⟩ => ?_
  simp only [foldRead_mk, isEmpty_lower, stripWord?_lower,
    LiteralTable.restore_entryless h, LiteralTable.restore_empty]
  split
  · simp [Join.fold]
  · cases stripWord? Clause.joinOn.phrase rest with
    | some behind =>
      simp only [Option.map_some, trim_lower, isEmpty_lower]
      split
      · rfl
      · simp [Join.fold]
    | none =>
      cases stripWord? Clause.joinUsing.phrase rest with
      | some behind =>
        simp only [Option.map_some, Option.map_none, trim_lower]
        refine bind_fold (fold_usingList _) fun columns => ?_
        simp [Join.fold]
      | none => rfl

include hn in
/-- The joins of folded pieces are the folded joins, by induction on the
pieces. -/
theorem fold_joinsOf (h : literals.literals = []) :
    ∀ (pieces : List Text) (modifiers : Text),
      joinsOf nested' .empty modifiers.lower (pieces.map lower) =
      foldResult (List.map Join.fold) (joinsOf nested literals modifiers pieces)
  | [], modifiers => rfl
  | [piece], modifiers => by
    refine bind_fold (fold_joinKind modifiers) fun kind => ?_
    refine bind_fold (fold_readJoin hn h kind piece) fun join => ?_
    rfl
  | piece :: piece' :: more, modifiers => by
    simp only [List.map_cons, joinsOf, trailingModifiers_lower]
    refine bind_fold (fold_joinKind modifiers) fun kind => ?_
    refine bind_fold (fold_readJoin hn h kind _) fun join => ?_
    refine bind_fold (fold_joinsOf h (piece' :: more) _) fun joins => ?_
    rfl

include hn in
/-- The joins of a folded text are its folded joins. -/
theorem fold_readJoins (h : literals.literals = []) (t : Text) :
    readJoins nested' .empty t.lower = foldResult
      (foldRead (List.map Join.fold)) (readJoins nested literals t) := by
  simp only [readJoins, cutBefore_lower, lowerPair, trim_lower, isEmpty_lower,
    split_lower, pieces_lower]
  split
  · rfl
  · cases (split Clause.join.phrase (cutBefore joinEnds t).1).pieces with
    | nil =>
      simp [LiteralTable.restore_entryless h, LiteralTable.restore_empty,
        ParseError.fold]
    | cons modifiers pieces =>
      cases pieces with
      | nil =>
        simp [LiteralTable.restore_entryless h, LiteralTable.restore_empty,
          ParseError.fold]
      | cons piece more =>
        refine bind_fold (fold_joinsOf hn h (piece :: more) modifiers)
          fun joins => ?_
        rfl

/-! ## Queries -/

/-- What is left behind the clauses is refused in either case, with the same
words in lower case. -/
theorem fold_finish (h : literals.literals = []) (t : Text) :
    finish .empty t.lower = foldResult id (finish literals t) := by
  simp only [finish, isEmpty_lower, LiteralTable.restore_entryless h,
    LiteralTable.restore_empty]
  split <;> rfl

include hn in
/-- The clauses of a folded statement are read to the folded query. -/
theorem fold_readClauses (h : literals.literals = []) (depth : Nat) (t : Text) :
    readClauses nested' .empty depth t.lower =
      foldResult Query.fold (readClauses nested literals depth t) := by
  refine bind_fold (fold_readTrailing .limit t) fun ⟨limit, t⟩ => ?_
  refine bind_fold (fold_readTrailing .offset t) fun ⟨offset, t⟩ => ?_
  refine bind_fold (fold_readOrderBy t) fun ⟨orderBy, t⟩ => ?_
  refine bind_fold (fold_readSelect h t) fun ⟨⟨distinct, columns⟩, t⟩ => ?_
  refine bind_fold (fold_readSources hn h t) fun ⟨⟨source, listed⟩, t⟩ => ?_
  refine bind_fold (fold_readJoins hn h t) fun ⟨joined, t⟩ => ?_
  refine bind_fold (fold_readFilter t) fun ⟨filter, t⟩ => ?_
  refine bind_fold (fold_readGroupBy t) fun ⟨groupBy, t⟩ => ?_
  simp only [foldRead_mk, List.isEmpty_map]
  refine bind_fold (fold_readHaving _ t) fun ⟨having, t⟩ => ?_
  refine bind_fold (fold_finish h t) fun _ => ?_
  simp [Query.fold, foldAll_eq_map]

theorem firstWord_lower (t : Text) :
    firstWord t.lower = (firstWord t).lower := by
  have hp : (fun c => !(isBlank c || c == '(')) ∘ Char.toLower = fun c =>
      !(isBlank c || c == '(') := by
    funext c
    simp [toLower_beq (d := '(') rfl]
  rw [firstWord, firstWord, Text.lower, List.takeWhile_map, hp]
  rfl

theorem lower_statementKind {word : Text} {k : Keyword}
    (h : Keyword.ofWord? word = some k) : k.text.lower = k.text := by
  have := List.find?_some h
  rw [beq_iff_eq.1 this, lower_lower]

include hn in
/-- A folded statement is read to the folded query: its first word and its
clauses are the folded ones. -/
theorem fold_readStatement (h : literals.literals = []) (depth : Nat)
    (t : Text) :
    readStatement nested' .empty depth t.lower =
      foldResult Query.fold (readStatement nested literals depth t) := by
  simp only [readStatement, isEmpty_lower, firstWord_lower, ofWord?_lower,
    LiteralTable.restore_entryless h, LiteralTable.restore_empty]
  split
  · rfl
  · cases hk : Keyword.ofWord? (firstWord t) with
    | none => rfl
    | some k =>
      simp only
      split
      · exact fold_readClauses hn h depth t
      · split
        · simp [ParseError.fold, lower_statementKind hk]
        · rfl

end Sources

/-- The query of a folded text is the folded query. -/
theorem fold_readQuery (h : literals.literals = []) :
    ∀ (room : Nat) (t : Text), readQuery .empty room t.lower =
      foldResult Query.fold (readQuery literals room t)
  | 0, t => fold_readStatement (fun _ => rfl) h maxDepth t
  | room + 1, t => fold_readStatement (fold_readQuery h room) h _ t

/-- A folded masked text is read to the folded query, and refused for the same
reason. -/
theorem fold_readMasked (h : literals.literals = []) (masked : Text) :
    readMasked .empty masked.lower =
      foldResult Query.fold (readMasked literals masked) := by
  simp only [readMasked, normalize_lower, isEmpty_lower, isBalanced_lower,
    trim_lower]
  split
  · rfl
  · split
    · rfl
    · exact fold_readQuery h maxDepth _

end Readers

end SqlRiver
