import SqlRiver.Proofs.Line.Sources

/-!
# Joins that are read back

The joins of a query are divided at `join`, and the word before `join` that
chooses the kind is taken off the end of what stands before it. So what a join
ends with must not look like such a word, unless no other join follows.

Main definitions and statements:

* `Join.Lacks`: a word that does not stand in a join.
* `CleanJoin`, `CleanJoins`: joins that are read back.
* `clear_source`, `clear_joins`: the keywords that do not stand in them.
* `trailingModifiers_line`: the word that chooses the kind of the next join.
* `readJoins_line`: joins are read back.
-/

namespace SqlRiver

open Text

variable {w word p x y z : Text} {o : Options} {ks ls : List Text}
  {literals : LiteralTable} {nested : Nested} {kind : JoinKind}

/-- The phrases that end the joins of a query, and the one that they are taken
for behind them. -/
def lineEnds : List Text := Clause.offset.phrase :: joinEnds

theorem isPhrase_of_mem_lineEnds : ∀ w ∈ lineEnds, isPhrase w = true := by
  decide

/-- A word that stands neither in the name nor in the predicate of a join. -/
structure Join.Lacks (w : Text) (j : Join) : Prop where
  name : ∀ n ∈ j.source.name?, Absent w n
  predicate : ∀ p ∈ j.onPredicate, Absent w p

/-- A join that is read back. -/
structure CleanJoin (nested : Nested) (o : Options) (j : Join) : Prop where
  source : CleanSource nested o j.source
  predicate : ∀ p ∈ j.onPredicate, Tidy p
  columns : ∀ e ∈ j.usingColumns, Tidy e ∧ NoTop isComma e
  one : j.onPredicate = none ∨ j.usingColumns = []
  lacks : ∀ v ∈ Clause.join.phrase :: joinEnds, j.Lacks v

/-- Joins that are read back. -/
structure CleanJoins (nested : Nested) (o : Options) (js : List Join) :
    Prop where
  each : ∀ j ∈ js, CleanJoin nested o j
  closed : ∀ j ∈ js.dropLast, ∀ p ∈ j.onPredicate,
    isJoinModifier (afterLast ' ' p) = false

/-! ## Keywords in joins -/

/-- A source on one line. -/
def Source.line (o : Options) (s : Source) : Text := join [' '] (s.chunks o)

theorem Source.line_table (o : Options) (name : Text)
    (aliasName : Option Text) :
    Source.line o (.table name aliasName) = name ++ aliasText aliasName := by
  rw [Source.line, Source.chunks, join_cons_led, led_alias]

/-- A query in brackets on the line is its line in brackets and its alias. -/
theorem Source.line_subquery (o : Options) (q : Query)
    (aliasName : Option Text) :
    Source.line o (.subquery q aliasName) =
      '(' :: (q.line o ++ [')']) ++ aliasText aliasName := by
  have hne : q.chunks o ≠ [] := by
    obtain ⟨ls, h⟩ := q.chunks_eq_cons o
    rw [h]
    exact List.cons_ne_nil _ _
  rw [Source.line, Source.chunks, join_append_led (bracketed_ne_nil hne),
    join_bracketed hne, led_alias]
  rfl

/-- A source is clear of a keyword if its name is. -/
theorem clear_source {s : Source} (hs : CleanSource nested o s) (hw : Keyed w)
    (hn : ∀ n ∈ s.name?, Absent w n) : Clear w (s.line o) := by
  cases s with
  | table name aliasName =>
    rw [Source.line_table]
    exact clear_aliased hw hs.1.tidy.top
      (fun y hy => (hn name rfl).absentIn hy) hs.2
  | subquery query aliasName =>
    rw [Source.line_subquery]
    exact clear_aliased hw (clear_brackets hw.phrase hs.1.balanced).top
      (fun y _ => absentIn_brackets hw.phrase hs.1.balanced y) hs.2

/-- The columns of `using` on the line, in brackets behind the keyword. -/
theorem led_using {columns : List Text} (h₀ : columns ≠ []) :
    led (o.keyword "using".toList :: bracketed (entryChunks columns)) =
      ' ' :: (o.keyword "using".toList ++ ' ' :: '(' ::
      (rowText columns ++ [')'])) := by
  have hne := entryChunks_ne_nil h₀
  rw [led_cons, led_eq_cons (bracketed_ne_nil hne), join_bracketed hne,
    join_entryChunks]

/-- The condition of a join, if it has one. -/
inductive ConditionText (o : Options) : Join → Text → Prop
  | bare {kind : JoinKind} {source : Source} :
    ConditionText o ⟨kind, source, none, []⟩ []
  | predicate {kind : JoinKind} {source : Source} {p : Text} : ConditionText o
      ⟨kind, source, some p, []⟩ (' ' :: (o.keyword "on".toList ++ ' ' :: p))
  | columns {kind : JoinKind} {source : Source} {columns : List Text} :
    columns ≠ [] → ConditionText o ⟨kind, source, none, columns⟩ (' ' ::
      (o.keyword "using".toList ++ ' ' :: '(' :: (rowText columns ++ [')'])))

/-- What stands behind the source of a join that is read back is its
condition. -/
theorem conditionText {j : Join} (h : CleanJoin nested o j) :
    ConditionText o j
      (led (joinConditionChunks o j.onPredicate j.usingColumns)) := by
  obtain ⟨kind, source, onPredicate, usingColumns⟩ := j
  have hone := h.one
  cases onPredicate with
  | none =>
    by_cases h₀ : usingColumns = []
    · subst h₀
      exact .bare
    · have : led (joinConditionChunks o none usingColumns) = ' ' :: (o.keyword
          "using".toList ++ ' ' :: '(' :: (rowText usingColumns ++ [')'])) := by
        rw [joinConditionChunks, if_neg (by simpa using h₀), led_append,
          led_using h₀]
        rfl
      simp only [this]
      exact .columns h₀
  | some p =>
    obtain rfl : usingColumns = [] := hone.resolve_left (by simp)
    have : led (joinConditionChunks o (some p) []) =
        ' ' :: (o.keyword "on".toList ++ ' ' :: p) := by
      simp [joinConditionChunks, expressionChunks]
    simp only [this]
    exact .predicate

theorem balanced_columns {columns : List Text}
    (h : ∀ e ∈ columns, Tidy e ∧ NoTop isComma e) :
    isBalanced (rowText columns) = true :=
  balanced_tidy rfl fun e he => (h e he).1

/-- A word that may end the joins of a query, or divide them. -/
structure JoinWord (v : Text) : Prop where
  keyed : Keyed v
  on : ¬ ("on".toList ++ [' ']) <+: v ++ [' ']
  columns : ¬ ("using".toList ++ [' ']) <+: v ++ [' ']

theorem joinWord {v : Text} (h : v ∈ Clause.join.phrase :: lineEnds) :
    JoinWord v := by
  have key : ∀ v ∈ Clause.join.phrase :: lineEnds, Keyed v ∧
      ¬ ("on".toList ++ [' ']) <+: v ++ [' '] ∧
      ¬ ("using".toList ++ [' ']) <+: v ++ [' '] := by decide
  obtain ⟨h₁, h₂, h₃⟩ := key v h
  exact ⟨h₁, h₂, h₃⟩

/-- What follows `join` on the line. -/
def joinBody (o : Options) (j : Join) : Text :=
  j.source.line o ++ led (joinConditionChunks o j.onPredicate j.usingColumns)

theorem sequel_condition {j : Join} {t : Text} (h : ConditionText o j t) :
    Sequel t := by
  cases h with
  | bare => exact sequel_nil
  | predicate => exact sequel_keyword o ⟨'o', _, rfl, by decide⟩ _
  | columns _ => exact sequel_keyword o ⟨'u', _, rfl, by decide⟩ _

/-- What follows `join` is clear of a word that the join lacks. -/
theorem clear_joinBody {j : Join} (h : CleanJoin nested o j) (hw : JoinWord w)
    (hl : j.Lacks w) : Clear w (joinBody o j) := by
  have hcond := conditionText h
  refine (clear_source h.source hw.keyed hl.name).append
    ?_ (sequel_condition hcond)
  generalize led (joinConditionChunks o j.onPredicate j.usingColumns) = t
    at hcond
  have hp := hw.keyed.phrase
  cases hcond with
  | bare => exact clear_nil w
  | predicate =>
    exact (clear_piece hp (h.predicate _ rfl).top (hl.predicate _ rfl)).led hp
      (by decide) hw.on
  | columns _ =>
    exact (clear_brackets hp (balanced_columns h.columns)).led hp
      (by decide) hw.columns

/-- What follows `join` is divided from the next join. -/
theorem CleanJoin.clear {j : Join} (h : CleanJoin nested o j) :
    Clear Clause.join.phrase (joinBody o j) :=
  clear_joinBody h (joinWord (List.mem_cons_self ..))
    (h.lacks _ (List.mem_cons_self ..))

/-! ## The word before `join` -/

/-- The word that chooses the kind of a join, with a space behind it. -/
def kindText (o : Options) : JoinKind → Text
  | .plain => []
  | kind => o.keyword kind.name ++ [' ']

theorem joinChunk_eq (kind : JoinKind) :
    joinChunk o kind = kindText o kind ++ o.keyword Clause.join.phrase := by
  cases kind <;> rfl

/-- The word of a kind of join: none, or a modifier. -/
theorem kindText_cases (o : Options) (kind : JoinKind) :
    (kind = .plain ∧ kindText o kind = []) ∨
      (kind ≠ .plain ∧ kindText o kind = o.keyword kind.name ++ [' ']) := by
  cases kind <;> simp [kindText]

theorem isLower_of_mem_name (kind : JoinKind) :
    ∀ c ∈ kind.name, c.isLower = true := by
  cases kind <;> decide

theorem keyword_name (o : Options) (kind : JoinKind) :
    Solid (o.keyword kind.name) :=
  keyword_solid o kind.name (by cases kind <;> decide)
    (by cases kind <;> decide)

theorem trim_kindText (h : kind ≠ .plain) :
    (kindText o kind).trim = o.keyword kind.name := by
  rcases kindText_cases o kind with ⟨rfl, -⟩ | ⟨-, e⟩
  · exact absurd rfl h
  · rw [e,
      trim_padEnd (trimmed_of_forall (keyword_name o kind).noBlank) blank_space]

/-- The word of a kind of join chooses the kind. -/
theorem joinKind_kindText (o : Options) (kind : JoinKind) :
    joinKind (kindText o kind).trim = .ok kind := by
  have key : ∀ kind : JoinKind, kind ≠ .plain → modifierWords.find?
      (fun entry => entry.1 == [kind.name]) = some ([kind.name], kind) := by
    intro kind h
    cases kind <;> first | exact absurd rfl h | decide
  by_cases h : kind = .plain
  · subst h
    rfl
  · have hlower : Text.lower (o.keyword kind.name) = kind.name := by
      rw [lower_keyword]
      cases kind <;> decide
    rw [trim_kindText h, joinKind, words_of_solid (keyword_name o kind),
      List.map_singleton, hlower, key kind h]

/-- The word before `join`, with what follows it, is clear of the words that end
the joins. -/
theorem clear_kindText (hw : w ∈ lineEnds) (hx : Clear w x) (kind : JoinKind) :
    Clear w (kindText o kind ++ x) := by
  have hne : ∀ v ∈ lineEnds, ¬ (kind.name ++ [' ']) <+: v ++ [' '] := by
    cases kind <;> decide
  rcases kindText_cases o kind with ⟨-, e⟩ | ⟨-, e⟩
  · rwa [e]
  · rw [e, List.append_assoc]
    exact hx.keyword (isPhrase_of_mem_lineEnds w hw) (isLower_of_mem_name kind)
      (hne w hw)

/-- No `join` stands in the word for its kind. -/
theorem absentIn_kindText (kind : JoinKind) (y : Text) :
    AbsentIn Clause.join.phrase (kindText o kind) y := by
  have hw := isPhrase_phrase .join
  have hne : ¬ (kind.name ++ [' ']) <+: Clause.join.phrase ++ [' '] := by
    cases kind <;> decide
  rcases kindText_cases o kind with ⟨-, e⟩ | ⟨-, e⟩
  · rw [e]
    exact absentIn_nil_left _ y
  · rw [e]
    refine AbsentIn.append
      ?_ (depth_keyword o (isLower_of_mem_name kind)) (absentIn_space hw y)
    exact absentIn_keyword hw (isLower_of_mem_name kind) hne y

theorem depth_kindText (o : Options) (kind : JoinKind) :
    depth (kindText o kind) = 0 := by
  rcases kindText_cases o kind with ⟨-, e⟩ | ⟨-, e⟩
  · rw [e]
    rfl
  · rw [e]
    simp [depth_keyword o (isLower_of_mem_name kind), depthStep]

/-! ## Joins in one line -/

/-- The words of a join may follow a piece. -/
theorem sequel_kindText (o : Options) (kind : JoinKind) (z : Text) :
    Sequel
      (' ' :: (kindText o kind ++ (o.keyword Clause.join.phrase ++ z))) := by
  rcases kindText_cases o kind with ⟨-, e⟩ | ⟨hp, e⟩
  · rw [e]
    exact sequel_keyword o ⟨'j', _, rfl, by decide⟩ _
  · rw [e, List.append_assoc]
    refine sequel_keyword o ?_ _
    cases kind <;> exact ⟨_, _, rfl, by decide⟩

/-- The first join on the line: its words, what follows them, and the other
joins. -/
theorem led_joins (j : Join) (js : List Join) :
    led (Join.allChunks o (j :: js)) =
      ' ' :: (kindText o j.kind ++
        (o.keyword Clause.join.phrase ++
          ' ' :: (joinBody o j ++ led (Join.allChunks o js)))) := by
  obtain ⟨kind, source, onPredicate, usingColumns⟩ := j
  rw [Join.allChunks, Join.chunks, led_append, List.cons_append, led_cons,
    led_append, led_eq_cons (source.chunks_ne_nil o), joinChunk_eq]
  simp [joinBody, Source.line]

theorem sequel_joins (o : Options) :
    ∀ js : List Join, Sequel (led (Join.allChunks o js))
  | [] => sequel_nil
  | j :: js => by
    rw [led_joins]
    exact sequel_kindText o j.kind _

/-- Joins are clear of the words that end them. -/
theorem clear_joins (hw : w ∈ lineEnds) :
    ∀ {js : List Join}, (∀ j ∈ js, CleanJoin nested o j) →
      (∀ j ∈ js, j.Lacks w) → Clear w (led (Join.allChunks o js))
  | [], _, _ => clear_nil w
  | j :: js, h, hl => by
    have hp := isPhrase_of_mem_lineEnds w hw
    have ih : Clear w (led (Join.allChunks o js)) :=
      clear_joins hw (fun k hk => h k (List.mem_cons_of_mem _ hk)) fun k hk =>
        hl k (List.mem_cons_of_mem _ hk)
    have hbody := clear_joinBody (h j (by simp))
      (joinWord (List.mem_cons_of_mem _ hw)) (hl j (by simp))
    have hne : ∀ v ∈ lineEnds, ¬ (Clause.join.phrase ++ [' ']) <+: v ++ [' '] :=
      by decide
    rw [led_joins]
    have hrest := (hbody.append ih (sequel_joins o js)).keyword (o :=
      o) hp (by decide) (hne w hw)
    exact (clear_kindText hw hrest j.kind).space hp

/-! ## The pieces between `join` -/

/-- The pieces behind each `join`: what follows it, and the word before the next
`join`. -/
def joinPieces (o : Options) (j : Join) : List Join → List Text
  | [] => [joinBody o j]
  | k :: js =>
    Text.trim (joinBody o j ++ ' ' :: kindText o k.kind) :: joinPieces o k js

theorem joinBody_eq (o : Options) (j : Join) :
    joinBody o j = join [' '] (j.source.chunks o ++
      joinConditionChunks o j.onPredicate j.usingColumns) := by
  rw [join_append_led (j.source.chunks_ne_nil o)]
  rfl

/-- What may stand before `join`. -/
structure BeforeJoin (o : Options) (a : Text) : Prop where
  top : depth a = 0
  edge : atEdge a.getLast? = true
  absentIn : ∀ y,
    AbsentIn Clause.join.phrase a (o.keyword Clause.join.phrase ++ ' ' :: y)

/-- The word for the kind of a join may stand before `join`. -/
theorem beforeJoin_kindText (o : Options) (kind : JoinKind) :
    BeforeJoin o (kindText o kind) := by
  refine ⟨depth_kindText o kind, ?_, fun y => absentIn_kindText kind _⟩
  rcases kindText_cases o kind with ⟨-, e⟩ | ⟨-, e⟩
  · rw [e]
    rfl
  · rw [e, List.getLast?_concat]
    rfl

/-- A join and the word for the next kind may stand before `join`. -/
theorem beforeJoin_body {j : Join} (h : CleanJoin nested o j)
    (kind : JoinKind) :
    BeforeJoin o (' ' :: (joinBody o j ++ ' ' :: kindText o kind)) := by
  have hw := isPhrase_phrase .join
  have hbody := h.clear.space hw
  have hkind := beforeJoin_kindText o kind
  have e : ' ' :: (joinBody o j ++ ' ' :: kindText o kind) =
      (' ' :: joinBody o j ++ [' ']) ++ kindText o kind := by simp
  rw [e]
  refine ⟨?_, ?_, fun y => ?_⟩
  · rw [depth_append, depth_append, hbody.top, hkind.top]
    rfl
  · rw [List.getLast?_append]
    cases hl : (kindText o kind).getLast? with
    | none =>
      rw [Option.none_or, List.getLast?_concat]
      rfl
    | some c =>
      rw [Option.some_or, ← hl]
      exact hkind.edge
  · refine AbsentIn.append ?_ ?_ (hkind.absentIn y)
    · refine AbsentIn.append ?_ hbody.top (absentIn_space hw _)
      exact hbody.absentIn _ (sequel_kindText o kind _)
    · rw [depth_append, hbody.top]
      rfl

/-- The chunks of a join's condition are fit. -/
theorem fit_condition {j : Join} (h : CleanJoin nested o j) :
    Fit (joinConditionChunks o j.onPredicate j.usingColumns) := by
  refine Fit.append ?_ ?_
  · cases hp : j.onPredicate with
    | none => exact fit_nil
    | some p =>
      exact .cons (tidy_keyword o (by decide) (by decide))
        (fit_single (h.predicate p hp))
  · split
    · exact fit_nil
    · next h₀ =>
      refine .cons (tidy_keyword o (by decide) (by decide))
        (Fit.bracketed ?_ ?_)
      · exact fit_entryChunks fun e he => (h.columns e he).1
      · exact entryChunks_ne_nil (by simpa using h₀)

theorem trimmed_joinBody {j : Join} (h : CleanJoin nested o j) :
    (joinBody o j).Trimmed := by
  rw [joinBody_eq]
  exact ((fit_source h.source).append (fit_condition h)).neat.trimmed

/-- Joins are divided at `join`. -/
theorem pieces_joins {r : Text} (hr : Gap r) :
    ∀ {js : List Join} {j : Join} {a : Text},
      (∀ k ∈ j :: js, CleanJoin nested o k) → BeforeJoin o a →
      (split Clause.join.phrase (a ++ o.keyword Clause.join.phrase ++ ' ' ::
      (joinBody o j ++ led (Join.allChunks o js) ++ r))).pieces =
      a.trim :: joinPieces o j js := by
  have hw := isPhrase_phrase .join
  have hpieces : ∀ (a m : Text) (s : Split),
      Split.pieces ⟨a, (m, s.first) :: s.rest⟩ = a.trim :: s.pieces :=
    fun _ _ _ => rfl
  intro js
  induction js with
  | nil =>
    intro j a h ha
    rw [split_of_stands hw ⟨lower_keyword o _, ha.top, ha.edge, rfl⟩
      (ha.absentIn _), hpieces, Join.allChunks, led_nil, List.append_nil]
    have hj := h j (by simp)
    have hbody := hj.clear.space hw
    have habs : Absent Clause.join.phrase (' ' :: joinBody o j ++ r) :=
      absent_append hw (hbody.absentIn r hr.sequel) hbody.top (hr.absent hw)
    have htrim : Text.trim (' ' :: joinBody o j ++ r) = joinBody o j :=
      trim_pad blank_space (trimmed_joinBody hj) hr.blank
    rw [← List.cons_append, split_of_absent hw habs, Split.pieces, Split.parts,
      List.map_cons, htrim]
    rfl
  | cons k js ih =>
    intro j a h ha
    rw [split_of_stands hw ⟨lower_keyword o _, ha.top, ha.edge, rfl⟩
      (ha.absentIn _), hpieces, led_joins]
    have e : ' ' :: (joinBody o j ++ ' ' ::
        (kindText o k.kind ++ (o.keyword Clause.join.phrase ++ ' ' ::
        (joinBody o k ++ led (Join.allChunks o js)))) ++ r) =
        ' ' :: (joinBody o j ++ ' ' :: kindText o k.kind) ++
        o.keyword Clause.join.phrase ++
        ' ' :: (joinBody o k ++ led (Join.allChunks o js) ++ r) := by simp
    have htrim : Text.trim (' ' :: (joinBody o j ++ ' ' :: kindText o k.kind)) =
        Text.trim (joinBody o j ++ ' ' :: kindText o k.kind) :=
      trim_blank_append blank_space _
    rw [e, ih (fun l hl => h l (List.mem_cons_of_mem _ hl))
      (beforeJoin_body (h j (by simp)) k.kind), htrim]
    rfl

/-! ## The last word of a join -/

theorem isReserved_of_isJoinModifier (h : isJoinModifier w = true) :
    isReserved w = true := by
  unfold isJoinModifier at h
  split at h
  · next k hk => rw [isReserved, hk]; rfl
  · cases h

/-- Keywords have no edges inside. -/
theorem isEdge_of_isReserved (h : isReserved w = true) :
    ∀ c ∈ w, isEdge c = false := by
  obtain ⟨k, hk⟩ := Option.isSome_iff_exists.1 h
  have key : ∀ k ∈ Keyword.all, ∀ c ∈ k.text, isEdge c = false := by decide
  have hmem := key k (List.mem_of_find?_eq_some hk)
  have hspell : w.lower = k.text.lower := by
    have hk' := List.find?_some hk
    have hlow : ∀ k ∈ Keyword.all, k.text = Text.lower k.text := by decide
    rw [← hlow k (List.mem_of_find?_eq_some hk)]
    simpa using (beq_iff_eq.1 hk').symm
  exact forall_mem_of_lower_eq (p := fun c => isEdge c = false)
    (fun c => by rw [isEdge_toLower]) hspell hmem

theorem depth_of_isReserved (h : isReserved w = true) : depth w = 0 := by
  refine depth_eq_zero fun c hc => ?_
  have := isEdge_of_isReserved h c hc
  simp only [isEdge, Bool.or_eq_false_iff] at this
  simp [depthStep, this]

/-- The last word of a text is the last word of what follows a space in it. -/
theorem afterLast_append_space (x y : Text) :
    afterLast ' ' (x ++ ' ' :: y) = afterLast ' ' y := by
  obtain ⟨pre, e, hpre, hsp⟩ := exists_afterLast ' ' y
  rcases hpre with rfl | hpre
  · rw [List.nil_append] at e
    rw [← e] at hsp
    rw [afterLast_append hsp, afterLast_of_not_mem hsp]
  · obtain ⟨pre, rfl⟩ := List.getLast?_eq_some_iff.1 hpre
    conv => lhs; rw [e]
    have : x ++ ' ' :: (pre ++ [' '] ++ afterLast ' ' y) =
        (x ++ ' ' :: pre) ++ ' ' :: afterLast ' ' y := by
      simp
    rw [this, afterLast_append hsp]

/-- The last word of a text that ends with a bracket is no keyword. -/
theorem isReserved_afterLast_closing (x : Text) :
    isReserved (afterLast ' ' (x ++ [')'])) = false := by
  obtain ⟨pre, e, hpre, -⟩ := exists_afterLast ' ' (x ++ [')'])
  rw [Bool.eq_false_iff]
  intro h
  have hlast : ')' ∈ afterLast ' ' (x ++ [')']) := by
    by_contra hn
    have hl := congrArg List.getLast? e
    rw [List.getLast?_concat, List.getLast?_append] at hl
    cases hy : (afterLast ' ' (x ++ [')'])).getLast? with
    | none =>
      rw [hy, Option.none_or] at hl
      rcases hpre with rfl | hpre
      · cases hl
      · rw [hpre] at hl
        cases hl
    | some c =>
      rw [hy, Option.some_or] at hl
      cases hl
      exact hn (List.mem_of_getLast? hy)
  cases isEdge_of_isReserved h _ hlast

/-- The last word of a name is no keyword. -/
theorem isReserved_afterLast_name {name : Text} (h : CleanName name) :
    isReserved (afterLast ' ' name) = false := by
  obtain ⟨pre, e, hpre, hsp⟩ := exists_afterLast ' ' name
  rw [Bool.eq_false_iff]
  intro hr
  rcases hpre with rfl | hpre
  · rw [List.nil_append] at e
    rw [← e, h.free] at hr
    cases hr
  · -- the space before the last word is in brackets, which the word cannot
    -- close
    obtain ⟨pre, rfl⟩ := List.getLast?_eq_some_iff.1 hpre
    have hd := depth_of_isReserved hr
    have htop := h.tidy.top
    rw [e, depth_append, hd, depth_append] at htop
    have hno := h.noEnd pre ' ' (afterLast ' ' name)
      (e.trans (List.append_cons ..).symm) (by simpa [depthStep] using htop)
    cases hno

/-- The last word of a source is no keyword. -/
theorem isReserved_afterLast_source {s : Source} (hs : CleanSource nested o s) :
    isReserved (afterLast ' ' (s.line o)) = false := by
  have key : ∀ {x : Text} {aliasName : Option Text},
      (∀ n ∈ aliasName, isAlias n = true) →
      isReserved (afterLast ' ' x) = false →
      isReserved (afterLast ' ' (x ++ aliasText aliasName)) = false := by
    intro x aliasName hn hx
    cases aliasName with
    | none => rwa [aliasText, List.append_nil]
    | some n =>
      rw [aliasText, afterLast_append (space_not_mem_alias (hn n rfl))]
      exact isReserved_of_isAlias (hn n rfl)
  cases s with
  | table name aliasName =>
    rw [Source.line_table]
    exact key hs.2 (isReserved_afterLast_name hs.1)
  | subquery query aliasName =>
    rw [Source.line_subquery, ← List.cons_append]
    exact key hs.2 (isReserved_afterLast_closing _)

/-- The last word of a join is not the word before another one. -/
theorem isJoinModifier_joinBody {j : Join} (h : CleanJoin nested o j)
    (hp : ∀ p ∈ j.onPredicate, isJoinModifier (afterLast ' ' p) = false) :
    isJoinModifier (afterLast ' ' (joinBody o j)) = false := by
  have free : ∀ {v : Text}, isReserved v = false → isJoinModifier v = false :=
    fun {v} hv => by
    rw [Bool.eq_false_iff]
    intro hm
    rw [isReserved_of_isJoinModifier hm] at hv
    cases hv
  have hcond := conditionText h
  have hsource := isReserved_afterLast_source h.source
  rw [joinBody]
  generalize led (joinConditionChunks o j.onPredicate j.usingColumns) = t
    at hcond
  cases hcond with
  | bare =>
    rw [List.append_nil]
    exact free hsource
  | predicate =>
    rw [afterLast_append_space, afterLast_append_space]
    exact hp _ rfl
  | @columns kind source columns _ =>
    have e : Source.line o source ++ ' ' :: (o.keyword "using".toList ++
          ' ' :: '(' :: (rowText columns ++ [')'])) =
        Source.line o source ++ ' ' :: (o.keyword "using".toList ++
          ' ' :: '(' :: rowText columns) ++ [')'] := by
      simp
    rw [e]
    exact free (isReserved_afterLast_closing _)

theorem joinBody_ne_nil {j : Join} (h : CleanJoin nested o j) :
    joinBody o j ≠ [] := by
  have hneat := ((fit_source h.source).append (fit_condition h)).neat
  rw [joinBody_eq]
  refine (trimmed_join [' '] (fun k hk => trimmed_of_spaced (hneat k hk).1)
    fun k hk => (hneat k hk).2).2 ?_
  exact List.append_ne_nil_of_left_ne_nil (j.source.chunks_ne_nil o) _

/-- The word for the kind of a join is read as such. -/
theorem isJoinModifier_name (h : kind ≠ .plain) :
    isJoinModifier (o.keyword kind.name) = true := by
  have hlower : Text.lower (o.keyword kind.name) = kind.name := by
    rw [lower_keyword]
    cases kind <;> decide
  rw [isJoinModifier, Keyword.ofWord?, hlower]
  cases kind <;> first | exact absurd rfl h | decide

/-- The word before the next `join` is taken off. -/
theorem trailingModifiers_line {j : Join} (h : CleanJoin nested o j)
    (hp : ∀ p ∈ j.onPredicate, isJoinModifier (afterLast ' ' p) = false)
    (kind : JoinKind) :
    trailingModifiers (Text.trim (joinBody o j ++ ' ' :: kindText o kind)) =
      (joinBody o j, (kindText o kind).trim) := by
  have htrim := trimmed_joinBody h
  have hne := joinBody_ne_nil h
  have hlast := isJoinModifier_joinBody h hp
  generalize joinBody o j = b at *
  -- without a modifier the text ends where it did
  have hstop : ∀ (r tail : Text), Blank r → ∀ bound, modifiersStart
      (b ++ r ++ tail) bound (b ++ r).length = (b ++ r).length := by
    intro r tail hr bound
    cases bound with
    | zero => rfl
    | succ bound =>
      have hw :
          lastWord (b ++ r ++ tail) (b ++ r).length = afterLast ' ' b := by
        rw [lastWord, List.take_left, trimEnd_pad hr htrim.stop]
      rw [modifiersStart, hw, hlast]
      rfl
  rcases kindText_cases o kind with ⟨rfl, e⟩ | ⟨hk, e⟩
  · have ht : Text.trim (b ++ ' ' :: kindText o .plain) = b :=
      trim_padEnd htrim blank_space
    have hcut := hstop [] [] blank_nil b.length
    simp only [List.append_nil] at hcut
    rw [ht, trailingModifiers, hcut, List.take_length, List.drop_length,
      trim_of_trimmed htrim]
    rfl
  · -- the word of the kind is taken off, and what stands before it ends with
    -- another word
    have hmod := isJoinModifier_name (o := o) hk
    have hsolid := keyword_name o kind
    rw [trim_kindText hk, e]
    generalize o.keyword kind.name = n at *
    have hn : n.Trimmed := trimmed_of_forall hsolid.noBlank
    have hsp : ' ' ∉ n := fun hmem => by cases hsolid.noBlank _ hmem
    have hbn : (b ++ ' ' :: n).Trimmed := by
      refine ⟨fun c hc => htrim.start c ?_, fun c hc => hn.stop c ?_⟩
      · rwa [List.head?_append_of_ne_nil _ hne] at hc
      · rwa [List.append_cons, List.getLast?_append_of_ne_nil _ hsolid.ne_nil]
          at hc
    have ht : Text.trim (b ++ ' ' :: (n ++ [' '])) = b ++ ' ' :: n := by
      rw [show b ++ ' ' :: (n ++ [' ']) = (b ++ ' ' :: n) ++ [' '] by simp]
      exact trim_padEnd hbn blank_space
    have hword : lastWord (b ++ ' ' :: n) (b ++ ' ' :: n).length = n := by
      rw [lastWord, List.take_length, ← List.append_nil (b ++ ' ' :: n),
        trimEnd_pad blank_nil hbn.stop, afterLast_append hsp]
    have hstart : lastWordStart (b ++ ' ' :: n) (b ++ ' ' :: n).length =
        (b ++ [' ']).length := by
      rw [lastWord, List.take_length] at hword
      rw [lastWordStart, List.take_length, hword,
        ← List.append_nil (b ++ ' ' :: n), trimEnd_pad blank_nil hbn.stop,
        List.append_cons, List.length_append, Nat.add_sub_cancel]
    have hcut : modifiersStart (b ++ ' ' :: n) (b ++ ' ' :: n).length
        (b ++ ' ' :: n).length = (b ++ [' ']).length := by
      obtain ⟨bound, hbound⟩ : ∃ bound, (b ++ ' ' :: n).length = bound + 1 :=
        ⟨b.length + n.length, by simp [Nat.add_assoc]⟩
      conv => lhs; arg 2; rw [hbound]
      rw [modifiersStart, hword, if_pos hmod, hstart, List.append_cons]
      exact hstop [' '] n blank_space bound
    rw [ht, trailingModifiers, hcut, List.append_cons b ' ' n, List.take_left,
      List.drop_left, trim_padEnd htrim blank_space, trim_of_trimmed hn]

/-! ## Reading joins -/

theorem isEnd_of_mem_joinSourceEnds :
    ∀ v ∈ joinSourceEnds, IsEnd v ∧ Keyed v := by
  decide

/-- The condition of a join starts with a word that ends its source. -/
theorem leads_condition (o : Options) (onPredicate : Option Text)
    (usingColumns : List Text) :
    Leads joinSourceEnds (joinConditionChunks o onPredicate usingColumns) := by
  cases onPredicate with
  | some p => exact leads_keyword o (v := Clause.joinOn.phrase) (by decide) _
  | none =>
    by_cases h₀ : usingColumns.isEmpty = true
    · exact .inl (by simp [joinConditionChunks, expressionChunks, h₀])
    · have e : joinConditionChunks o none usingColumns = o.keyword
          Clause.joinUsing.phrase :: bracketed (entryChunks usingColumns) := by
        rw [joinConditionChunks, if_neg h₀]
        rfl
      rw [e]
      exact leads_keyword o (by decide) _

theorem join_eq_of_led (h : led ks = ' ' :: x) : join [' '] ks = x := by
  have := join_append_of_led h []
  rwa [List.append_nil, led_nil, List.append_nil] at this

theorem led_eq_nil (h : led ks = []) : ks = [] := by
  cases ks with
  | nil => rfl
  | cons k ks =>
    rw [led_cons] at h
    cases h

/-- The condition of a join is read back. -/
theorem conditioned_line {j : Join} (h : CleanJoin nested o j) :
    Conditioned j.kind j.source
      (join [' '] (joinConditionChunks o j.onPredicate j.usingColumns)) j := by
  have hcond := conditionText h
  generalize hks : joinConditionChunks o j.onPredicate j.usingColumns = ks
    at hcond ⊢
  generalize hled : led ks = t at hcond
  cases hcond with
  | bare =>
    rw [led_eq_nil hled]
    exact .bare
  | @predicate kind source p =>
    have htidy := h.predicate p rfl
    have htrim : Text.trim (' ' :: p) = p :=
      trim_padStart blank_space htidy.trimmed
    rw [join_eq_of_led hled]
    have hc :=
      @Conditioned.predicate kind source (o.keyword "on".toList) (' ' :: p)
        ⟨lower_keyword o _, rfl, rfl, rfl⟩ (by rw [htrim]; exact htidy.ne_nil)
    rwa [htrim] at hc
  | @columns kind source columns h₀ =>
    have htidy : ∀ e ∈ columns, Tidy e := fun e he => (h.columns e he).1
    have hbr : (rowText columns).Trimmed := (trimmed_tidy _ h₀ htidy).1
    have htrim : Text.trim (' ' :: '(' :: (rowText columns ++ [')'])) =
        '(' :: (rowText columns ++ [')']) := by
      refine trim_padStart (l := [' ']) blank_space ⟨?_, ?_⟩
      · rintro c ⟨⟩
        rfl
      · rw [← List.cons_append, List.getLast?_concat]
        rintro c ⟨⟩
        rfl
    rw [join_eq_of_led hled]
    refine Conditioned.columns ?_ ⟨lower_keyword o _, rfl, rfl, rfl⟩ ?_
    · exact stripWord?_of_ne (isPhrase_phrase .joinOn)
        (isPhrase_phrase .joinUsing) (lower_keyword o _) rfl
        (by decide) (by decide)
    · rw [htrim, usingList_eq_ok_iff]
      exact ⟨rowText columns, rfl, balanced_columns h.columns, commaList_rowText
        h₀ htidy (fun e he => (h.columns e he).2) (trim_of_trimmed hbr)⟩

/-- A join is read back from what follows `join`. -/
theorem readJoin_line {j : Join} (h : CleanJoin nested o j) :
    readJoin nested literals j.kind (joinBody o j) = .ok j := by
  rw [readJoin_eq_ok_iff, trim_of_trimmed (trimmed_joinBody h), joinBody_eq]
  exact ⟨j.source, _, readSource_line literals .join isEnd_of_mem_joinSourceEnds
    h.source (fit_condition h).neat (leads_condition o _ _), conditioned_line h⟩

/-- The joins are read back from their pieces, by induction on the joins. -/
theorem joinsOf_line :
    ∀ {js : List Join} {j : Join}, CleanJoins nested o (j :: js) →
      joinsOf nested literals (kindText o j.kind).trim (joinPieces o j js) =
      .ok (j :: js)
  | [], j, h => by
    rw [joinPieces, joinsOf, joinKind_kindText]
    simp only [bind_eq_ok]
    exact ⟨j.kind, rfl, j, readJoin_line (h.each j (by simp)), rfl⟩
  | k :: js, j, h => by
    have hj := h.each j (by simp)
    have hclosed : ∀ p ∈ j.onPredicate,
        isJoinModifier (afterLast ' ' p) = false :=
      h.closed j (by simp)
    have ih : joinsOf nested literals (kindText o k.kind).trim
        (joinPieces o k js) = .ok (k :: js) :=
      joinsOf_line ⟨fun l hl => h.each l (List.mem_cons_of_mem _ hl),
        fun l hl => h.closed l (List.mem_cons_of_mem _ hl)⟩
    obtain ⟨piece, more, hp⟩ : ∃ piece more,
        joinPieces o k js = piece :: more := by
      cases js <;> exact ⟨_, _, rfl⟩
    rw [joinPieces, hp, joinsOf, trailingModifiers_line hj hclosed,
      joinKind_kindText]
    · simp only [bind_eq_ok]
      exact ⟨j.kind, rfl, j, readJoin_line hj, k :: js, hp ▸ ih, rfl⟩
    · simp

theorem isEnd_of_mem_joinEnds : ∀ v ∈ joinEnds, IsEnd v := by decide

/-- The joins are read back. -/
theorem readJoins_line (literals : LiteralTable) {js : List Join}
    (h : CleanJoins nested o js) (hks : Neat ks) (hl : Leads joinEnds ks) :
    readJoins nested literals (join [' '] (Join.allChunks o js ++ ks)) =
      .ok (js, join [' '] ks) := by
  rw [readJoins_eq_ok_iff]
  cases js with
  | nil => exact ⟨[], _, rfl, hl.upTo, .inl ⟨rfl, rfl, rfl⟩⟩
  | cons j js =>
    have hled := led_joins (o := o) j js
    have hclear : ∀ v ∈ joinEnds, Clear v (led (Join.allChunks o (j :: js))) :=
      fun v hv =>
      clear_joins (List.mem_cons_of_mem _ hv) h.each fun k hk =>
        (h.each k hk).lacks v (List.mem_cons_of_mem _ hv)
    rw [hled] at hclear
    obtain ⟨r, y, hr, e, hu, hy⟩ := upTo_led isEnd_of_mem_joinEnds
      (fun v hv => (hclear v hv).of_space (isPhrase_of_mem_joinEnds v hv))
      ((hclear _ (List.mem_cons_self ..)).of_space
      (isPhrase_phrase .filter)).top hks hl
    obtain ⟨piece, more, hp⟩ : ∃ piece more,
        joinPieces o j js = piece :: more := by
      cases js <;> exact ⟨_, _, rfl⟩
    have hpieces := pieces_joins hr h.each (beforeJoin_kindText o j.kind)
    refine ⟨_, y, ?_, hu,
      .inr ⟨?_, (kindText o j.kind).trim, piece, more, ?_, ?_, hy.symm⟩⟩
    · rw [join_append_of_led hled, e]
    · rw [Ne, trim_eq_nil_iff]
      intro hb
      have hsolid := keyword_solid o Clause.join.phrase (by decide) (by decide)
      obtain ⟨c, hc⟩ := List.exists_mem_of_ne_nil _ hsolid.ne_nil
      have hblank := hb c (by simp [hc])
      rw [hsolid.noBlank c hc] at hblank
      cases hblank
    · rw [← hp, ← hpieces]
      simp
    · rw [← hp]
      exact joinsOf_line h

end SqlRiver
