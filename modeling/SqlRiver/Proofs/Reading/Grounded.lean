import SqlRiver.Proofs.Reading.Narrowed
import SqlRiver.Query.Read

/-!
# Reading without a limit

The reader of a query asks for the queries inside it at proper parts of its text
only, whether brackets are balanced or not. So recursion on the length of the
text gives a reader without any limit on the depth, and it is the only one that
reads every query with itself inside. The reader with a limit answers as this
one does, unless it reaches the limit.

Main definitions and statements:

* `EqUnless`, `AgreeInside`: answers that are equal unless the first is a stop,
  and readers with such answers at all proper parts of a text.
* `eqUnless_readStatement`: a query is read from the readings of proper parts of
  its text.
* `readUnlimited`: the reader without a limit.
* `Grounded`, `grounded`: what the recursions of the reader go down with.
-/

namespace SqlRiver

open Text

/-! ## Equal answers -/

/-- Two answers are equal, unless the first is an error at which reading
stops. -/
def EqUnless {α : Type} (stop : ParseError → Prop) (x y : Except ParseError α) :
    Prop :=
  x = y ∨ ∃ e, stop e ∧ x = .error e

section EqUnless

variable {α β : Type} {stop : ParseError → Prop} {x y : Except ParseError α}
  {f g : α → Except ParseError β}

theorem EqUnless.refl (x : Except ParseError α) : EqUnless stop x x := .inl rfl

/-- A stop is passed on, and without one both go on from the same value. -/
theorem EqUnless.bind (h : EqUnless stop x y)
    (hf : ∀ a, x = .ok a → EqUnless stop (f a) (g a)) :
    EqUnless stop (x >>= f) (y >>= g) := by
  rcases h with rfl | ⟨e, hstop, rfl⟩
  · cases x with
    | error e => exact .refl _
    | ok a => exact hf a rfl
  · exact .inr ⟨e, hstop, rfl⟩

theorem EqUnless.eq (h : EqUnless (fun _ => False) x y) : x = y := by
  rcases h with h | ⟨_, hfalse, _⟩
  · exact h
  · exact hfalse.elim

end EqUnless

/-! ## Readers of the queries inside -/

/-- Two readers of queries in brackets give such answers at all proper parts of
a text. -/
def AgreeInside (stop : ParseError → Prop) (nested nested' : Nested)
    (t : Text) : Prop :=
  ∀ u, u <:+: t → u.length < t.length → EqUnless stop (nested u) (nested' u)

section AgreeInside

variable {stop : ParseError → Prop} {nested nested' : Nested}
  {literals : LiteralTable} {clause : Clause} {t u : Text}

theorem AgreeInside.of_isInfix (h : AgreeInside stop nested nested' t)
    (hu : u <:+: t) : AgreeInside stop nested nested' u :=
  fun v hv hlt => h v (hv.trans hu) (hlt.trans_le hu.length_le)

/-- A source without an alias is read alike with readers that agree inside
it. -/
theorem eqUnless_readBare (h : AgreeInside stop nested nested' t) :
    EqUnless stop (readBare nested clause t) (readBare nested' clause t) := by
  unfold readBare
  split
  · exact .refl _
  · split
    · split
      · exact .refl _
      · next inside rest hunwrap =>
        -- the text in the brackets is less than the text with them
        obtain ⟨rfl, -⟩ := unwrap?_eq_some_iff.1 hunwrap
        refine .bind (h _ ?_ ?_) fun query _ => .refl _
        · exact (isInfix_trim inside).trans ⟨['('], ')' :: rest, by simp⟩
        · refine (length_trim_le inside).trans_lt ?_
          simp only [List.length_append, List.length_cons]
          omega
    · exact .refl _

/-- A source is read alike with readers that agree inside it. -/
theorem eqUnless_readSource {ends : List Text}
    (h : AgreeInside stop nested nested' t) :
    EqUnless stop (readSource nested literals ends clause t)
      (readSource nested' literals ends clause t) :=
  .bind (eqUnless_readBare h) fun _ _ => .refl _

/-- The sources behind a comma are read alike with readers that agree inside
them. -/
theorem eqUnless_readMore {bound : Nat}
    (h : AgreeInside stop nested nested' t) :
    EqUnless stop (readMore nested literals bound t)
      (readMore nested' literals bound t) := by
  induction bound generalizing t with
  | zero => exact .refl _
  | succ bound ih =>
    rw [readMore, readMore]
    split
    · exact .refl _
    · next behind hcomma =>
      obtain ⟨tail, rfl, rfl⟩ := stripComma?_eq_some_iff.1 hcomma
      have hbehind := h.of_isInfix
        ((isInfix_trim tail).trans (List.suffix_cons ',' tail).isInfix)
      refine .bind (eqUnless_readSource hbehind) ?_
      rintro ⟨source, rest⟩ hsource
      have hrest := hbehind.of_isInfix
        (isInfix_readSource isPhrase_of_mem_sourceEnds hsource)
      exact .bind (ih hrest) fun _ _ => .refl _

/-- The sources of a list are read alike with readers that agree inside them. -/
theorem eqUnless_readSources (h : AgreeInside stop nested nested' t) :
    EqUnless stop (readSources nested literals t)
      (readSources nested' literals t) := by
  refine .bind (eqUnless_readSource h) ?_
  rintro ⟨source, rest⟩ hsource
  have hrest :=
    h.of_isInfix (isInfix_readSource isPhrase_of_mem_sourceEnds hsource)
  exact .bind (eqUnless_readMore hrest) fun _ _ => .refl _

/-- A join is read alike with readers that agree inside it. -/
theorem eqUnless_readJoin {kind : JoinKind}
    (h : AgreeInside stop nested nested' t) :
    EqUnless stop (readJoin nested literals kind t)
      (readJoin nested' literals kind t) :=
  .bind (eqUnless_readSource (h.of_isInfix (isInfix_trim t))) fun _ _ => .refl _

/-- The modifiers of the next join are taken off a piece, and the join before
them is read from the rest. -/
theorem eqUnless_joinsOf {modifiers : Text} {pieces : List Text}
    (h : ∀ piece ∈ pieces, AgreeInside stop nested nested' piece) :
    EqUnless stop (joinsOf nested literals modifiers pieces)
      (joinsOf nested' literals modifiers pieces) := by
  induction pieces generalizing modifiers with
  | nil => exact .refl _
  | cons piece more ih =>
    have hpiece := h piece List.mem_cons_self
    cases more with
    | nil =>
      refine .bind (.refl _) fun kind _ => ?_
      exact .bind (eqUnless_readJoin hpiece) fun _ _ => .refl _
    | cons piece' more =>
      obtain ⟨body, next, rfl, -, hcut⟩ := exists_trailingModifiers piece
      have hbody := hpiece.of_isInfix
        ((isInfix_trim body).trans (List.prefix_append body next).isInfix)
      rw [joinsOf, joinsOf, hcut]
      · refine .bind (.refl _) fun kind _ => ?_
        refine .bind (eqUnless_readJoin hbody) fun join _ => ?_
        exact .bind (ih fun p hp => h p (List.mem_cons_of_mem _ hp)) fun _ _ =>
          .refl _
      all_goals exact List.cons_ne_nil _ _

/-- Each piece is a part of the text that is split. -/
theorem isInfix_of_mem_pieces {sep piece : Text}
    (h : piece ∈ (split sep t).pieces) : piece <:+: t := by
  obtain ⟨part, hpart, rfl⟩ := List.mem_map.1 h
  refine (isInfix_trim part).trans ?_
  rw [← text_split sep t, Split.text]
  rcases List.mem_cons.1 hpart with rfl | hpart
  · exact (List.prefix_append _ _).isInfix
  · obtain ⟨⟨w, part⟩, hmem, rfl⟩ := List.mem_map.1 hpart
    have hentry := List.infix_of_mem_flatten
      (List.mem_map_of_mem (f := fun entry => entry.1 ++ entry.2) hmem)
    exact ((List.suffix_append w part).isInfix.trans hentry).trans
      (List.suffix_append _ _).isInfix

/-- The joins of a text are read alike with readers that agree inside it. -/
theorem eqUnless_readJoins (h : AgreeInside stop nested nested' t) :
    EqUnless stop (readJoins nested literals t)
      (readJoins nested' literals t) := by
  unfold readJoins
  cases hcut : cutBefore joinEnds t with
  | mk region tail =>
    obtain ⟨rfl, -⟩ := (cutBefore_eq_iff isPhrase_of_mem_joinEnds).1 hcut
    simp only
    split
    · exact .refl _
    · split
      · next modifiers piece more hpieces =>
        refine .bind (eqUnless_joinsOf fun p hp => ?_) fun _ _ => .refl _
        have hmem : p ∈ (split Clause.join.phrase region).pieces := by
          rw [hpieces]
          exact List.mem_cons_of_mem _ hp
        exact h.of_isInfix ((isInfix_of_mem_pieces hmem).trans
          (List.prefix_append region tail).isInfix)
      · exact .refl _

/-! ## Queries -/

/-- Only sources and joins hold queries in brackets, and both are read from
parts of the text. -/
theorem eqUnless_readClauses {depth : Nat}
    (h : AgreeInside stop nested nested' t) :
    EqUnless stop (readClauses nested literals depth t)
      (readClauses nested' literals depth t) := by
  unfold readClauses
  refine .bind (.refl _) fun ⟨limit, t₁⟩ hlimit => ?_
  refine .bind (.refl _) fun ⟨offset, t₂⟩ hoffset => ?_
  refine .bind (.refl _) fun ⟨orderBy, t₃⟩ horder => ?_
  refine .bind (.refl _) fun ⟨list, t₄⟩ hselect => ?_
  have h₁ := h.of_isInfix
    ((cutsOff_readTrailing .limit).isInfix List.IsPrefix.isInfix hlimit)
  have h₂ := h₁.of_isInfix
    ((cutsOff_readTrailing .offset).isInfix List.IsPrefix.isInfix hoffset)
  have h₃ :=
    h₂.of_isInfix (cutsOff_readOrderBy.isInfix List.IsPrefix.isInfix horder)
  rcases cutsOff_readSelect literals t₃ list t₄ hselect with
    ⟨hfalse, -⟩ | ⟨-, tail, htail, -, rfl⟩
  · exact hfalse.elim
  · have h₄ := h₃.of_isInfix ((isInfix_trim tail).trans htail.isInfix)
    refine .bind (eqUnless_readSources h₄) fun ⟨sources, t₅⟩ hsources => ?_
    have hpart := (narrows_readSources nested literals _ sources t₅
      (trimmed_trim tail) hsources).part
    exact .bind (eqUnless_readJoins (h₄.of_isInfix hpart.isInfix)) fun _ _ =>
      .refl _

/-- A query is read from the readings of proper parts of its text. -/
theorem eqUnless_readStatement {depth : Nat}
    (h : AgreeInside stop nested nested' t) :
    EqUnless stop (readStatement nested literals depth t)
      (readStatement nested' literals depth t) := by
  unfold readStatement
  split
  · exact .refl _
  · split
    · split
      · exact eqUnless_readClauses h
      · exact .refl _
    · exact .refl _

end AgreeInside

/-! ## Loops -/

theorem modifiersStart_zero (piece : Text) (bound : Nat) :
    modifiersStart piece bound 0 = 0 := by
  cases bound with
  | zero => rfl
  | succ bound =>
    rw [modifiersStart]
    split
    · next hm => exact absurd (lastWordStart_lt hm) (Nat.not_lt_zero _)
    · rfl

/-- Taking modifiers off ends before any bound that is as large as the place
where it starts. -/
theorem modifiersStart_eq (piece : Text) {bound bound' cut : Nat}
    (h : cut ≤ bound) (h' : cut ≤ bound') :
    modifiersStart piece bound cut = modifiersStart piece bound' cut := by
  induction bound generalizing bound' cut with
  | zero =>
    obtain rfl := Nat.le_zero.1 h
    rw [modifiersStart_zero, modifiersStart_zero]
  | succ bound ih =>
    cases bound' with
    | zero =>
      obtain rfl := Nat.le_zero.1 h'
      rw [modifiersStart_zero, modifiersStart_zero]
    | succ bound' =>
      rw [modifiersStart, modifiersStart]
      split
      · next hm =>
        have hlt := lastWordStart_lt hm
        exact ih (by omega) (by omega)
      · rfl

/-- Reading sources behind commas ends before any bound that is as large as the
text. -/
theorem readMore_eq (nested : Nested) (literals : LiteralTable)
    {bound bound' : Nat} {t : Text}
    (h : t.length ≤ bound) (h' : t.length ≤ bound') :
    readMore nested literals bound t = readMore nested literals bound' t := by
  induction bound generalizing bound' t with
  | zero =>
    obtain rfl := List.length_eq_zero_iff.1 (Nat.le_zero.1 h)
    cases bound' <;> rfl
  | succ bound ih =>
    cases bound' with
    | zero =>
      obtain rfl := List.length_eq_zero_iff.1 (Nat.le_zero.1 h')
      rfl
    | succ bound' =>
      rw [readMore, readMore]
      split
      · rfl
      · next behind hcomma =>
        obtain ⟨tail, rfl, rfl⟩ := stripComma?_eq_some_iff.1 hcomma
        refine EqUnless.eq (.bind (.refl _) ?_)
        rintro ⟨source, rest⟩ hsource
        have hrest :=
          (length_readSource_lt isPhrase_of_mem_sourceEnds hsource).trans_le
            (length_trim_le tail)
        rw [List.length_cons] at h h'
        have hmore : readMore nested literals bound rest =
            readMore nested literals bound' rest :=
          ih (by omega) (by omega)
        simp only [hmore]
        exact .refl _

/-! ## No limit -/

/-- The reader of a query that is nested in `depth` others, without any
limit. -/
def readUnlimited (literals : LiteralTable) (depth : Nat) (t : Text) :
    Except ParseError Query :=
  readStatement (fun u => if _ : u.length < t.length then
    readUnlimited literals (depth + 1) u else .error .tooDeep) literals depth t
termination_by t.length

/-- The queries inside are always shorter. -/
theorem readUnlimited_eq (literals : LiteralTable) (depth : Nat) (t : Text) :
    readUnlimited literals depth t =
      readStatement (readUnlimited literals (depth + 1)) literals depth t := by
  rw [readUnlimited]
  refine (eqUnless_readStatement fun u _ hlt => ?_).eq
  rw [dif_pos hlt]
  exact .refl _

/-- Whoever reads every query with itself inside is the reader without a
limit. -/
theorem eq_readUnlimited {literals : LiteralTable} {read : Nat → Nested}
    (h : ∀ depth t,
    read depth t = readStatement (read (depth + 1)) literals depth t) :
    read = readUnlimited literals := by
  funext depth t
  -- the depth grows as the text shrinks, so the induction is on the length of
  -- the text
  induction hlen : t.length
    using Nat.strong_induction_on generalizing depth t with
  | _ n ih =>
    rw [h, readUnlimited_eq]
    refine (eqUnless_readStatement fun u _ hlt => ?_).eq
    rw [ih u.length (hlen ▸ hlt) (depth + 1) u rfl]
    exact .refl _

/-- The limit can only turn an answer into an error. -/
theorem eqUnless_readQuery (literals : LiteralTable) {room : Nat}
    (h : room ≤ maxDepth) (t : Text) :
    EqUnless (· = .tooDeep) (readQuery literals room t)
      (readUnlimited literals (maxDepth - room) t) := by
  induction room generalizing t with
  | zero =>
    rw [readQuery, readUnlimited_eq]
    exact eqUnless_readStatement fun u _ _ => .inr ⟨_, rfl, rfl⟩
  | succ room ih =>
    rw [readQuery, readUnlimited_eq,
      show maxDepth - (room + 1) + 1 = maxDepth - room by omega]
    exact eqUnless_readStatement fun u _ _ => ih (by omega) u

/-! ## Recursion that is grounded -/

/-- What goes down in the loops and in the recursion of the reader: the text
that is left, in bytes, or a position in it. Neither balance of brackets nor the
limit on the depth is needed for it. -/
structure Grounded (literals : LiteralTable) : Prop where
  /-- A reader of a clause leaves an end or the start of the text, and less of
  it if the clause is there. -/
  stages : ∀ nested, StagesNarrow nested literals
  /-- Each modifier of a join that is taken off stands further ahead. -/
  modifiers : ∀ piece cut, isJoinModifier (lastWord piece cut) = true →
    lastWordStart piece cut < cut
  /-- The bound on the modifiers is not reached. -/
  modifiersBound : ∀ piece bound cut, cut ≤ bound →
    modifiersStart piece bound cut = modifiersStart piece cut cut
  /-- The bound on the sources behind commas is not reached. -/
  sourcesBound : ∀ nested bound t, t.length ≤ bound →
    readMore nested literals bound t = readMore nested literals t.length t
  /-- A query is read from the readings of shorter parts of its text. -/
  inside : ∀ (nested nested' : Nested) (depth : Nat) (t : Text),
    (∀ u : Text, u <:+: t → u.byteSize < t.byteSize → nested u = nested' u) →
    readStatement nested literals depth t =
    readStatement nested' literals depth t
  /-- So there is one reader, and only one, that reads every query with itself
  inside. -/
  unlimited : ∃! read : Nat → Nested, ∀ depth t,
    read depth t = readStatement (read (depth + 1)) literals depth t
  /-- The reader with a limit answers as that reader does, or reaches the
  limit. -/
  limited : ∀ read : Nat → Nested, (∀ depth t, read depth t =
    readStatement (read (depth + 1)) literals depth t) → ∀ room ≤ maxDepth, ∀ t,
    readQuery literals room t = read (maxDepth - room) t ∨
    readQuery literals room t = .error .tooDeep

/-- Readers narrow the text, and recursion ends with it. -/
theorem grounded (literals : LiteralTable) : Grounded literals where
  stages nested := stagesNarrow nested literals
  modifiers _ _ := lastWordStart_lt
  modifiersBound piece _ _ h := modifiersStart_eq piece h le_rfl
  sourcesBound nested _ _ h := readMore_eq nested literals h le_rfl
  inside nested nested' depth t h := by
    refine (eqUnless_readStatement fun u hu hlt => ?_).eq
    rw [h u hu (byteSize_lt_of_isInfix hu hlt)]
    exact .refl _
  unlimited := ⟨readUnlimited literals, readUnlimited_eq literals,
    fun _ => eq_readUnlimited⟩
  limited read hread room hroom t := by
    rw [eq_readUnlimited hread]
    rcases eqUnless_readQuery literals hroom t with h | ⟨_, rfl, h⟩
    · exact .inl h
    · exact .inr h

end SqlRiver
