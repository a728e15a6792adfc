import SqlRiver.Proofs.Layout.Chunks
import SqlRiver.Proofs.Reading.Tokens

/-!
# The tokens in the chunks of a query

Every chunk of a query is a keyword, or a token with commas and brackets around
it. A property of texts that keywords have and that commas and brackets do not
change holds of the chunks if it holds of the tokens; what can be collected from
texts in order is the same for chunks and tokens.

Main statements:

* `flatMap_chunks`: what is collected from chunks and from tokens.
* `forall_chunks`: what holds of all tokens holds of all chunks.
-/

namespace SqlRiver

/-- A text of letters and spaces. -/
def Lettered (t : Text) : Prop := ∀ c ∈ t, c.isAlpha = true ∨ c = ' '

/-- A keyword is written with letters and spaces in either case. -/
theorem lettered_keyword (o : Options) {word : Text}
    (h : ∀ c ∈ word, c.isLower = true ∨ c = ' ') :
    Lettered (o.keyword word) := by
  intro c hc
  have hlow : c.toLower ∈ word.lower := by
    rw [← lower_keyword o word]
    exact List.mem_map_of_mem hc
  obtain ⟨d, hd, e⟩ := List.mem_map.1 hlow
  rcases h d hd with hd | rfl
  · rw [toLower_of_isLower hd] at e
    exact .inl (isAlpha_of_toLower (e ▸ hd))
  · exact .inr ((toLower_eq_iff rfl).1 e.symm)

theorem Lettered.append {t u : Text} (ht : Lettered t) (hu : Lettered u) :
    Lettered (t ++ u) :=
  fun c hc => (List.mem_append.1 hc).elim (ht c) (hu c)

theorem lettered_space : Lettered [' '] := by simp [Lettered]

theorem lettered_spaces (n : Nat) : Lettered (Text.spaces n) :=
  fun _ hc => .inr (List.eq_of_mem_replicate hc)

theorem lettered_lead (o : Options) {base word : Text} (hb : Lettered base)
    (hw : ∀ c ∈ word, c.isLower = true ∨ c = ' ') :
    Lettered (lead o base word) :=
  hb.append ((lettered_spaces _).append (lettered_keyword o hw))

/-- No other character is in letters and spaces. -/
theorem Lettered.not_mem {t : Text} (h : Lettered t) {c : Char}
    (hc : c.isAlpha = false) (hs : c ≠ ' ') : c ∉ t :=
  fun hm => by
    rcases h c hm with ha | ha
    · rw [hc] at ha
      cases ha
    · exact hs ha

/-- Keywords add nothing to what is collected, and neither do the commas and
brackets that stick to a text. -/
structure Collects {β : Type} (f : Text → List β) : Prop where
  letters : ∀ t, Lettered t → f t = []
  comma : ∀ t, f (t ++ [',']) = f t
  opening : ∀ t, f (['('] ++ t) = f t
  closing : ∀ t, f (t ++ [')']) = f t

namespace Collects

variable {β : Type} {f : Text → List β}

/-- A text that adds nothing to what is collected may stand behind the last
chunk. -/
theorem flatMap_appendLast {x : Text} (hx : ∀ t, f (t ++ x) = f t)
    (ks : List Text) : (appendLast x ks).flatMap f = ks.flatMap f := by
  rcases List.eq_nil_or_concat' ks with rfl | ⟨ks, k, rfl⟩
  · rfl
  · rw [appendLast_concat, List.flatMap_append, List.flatMap_append]
    simp [hx]

variable (h : Collects f) (o : Options)
include h

theorem keyword {word : Text} (hw : ∀ c ∈ word, c.isLower = true ∨ c = ' ') :
    f (o.keyword word) = [] :=
  h.letters _ (lettered_keyword o hw)

theorem brackets : f Token.opening.text = [] ∧ f Token.closing.text = [] := by
  have h₀ : f [] = [] := h.letters [] (by simp [Lettered])
  exact ⟨(h.opening []).trans h₀, (h.closing []).trans h₀⟩

/-- The commas of a list add nothing to what is collected. -/
theorem flatMap_commaChunks : ∀ kss : List (List Text),
    (commaChunks kss).flatMap f = kss.flatMap (List.flatMap f)
  | [] => rfl
  | [ks] => by simp [commaChunks]
  | ks :: ls :: kss => by
    rw [commaChunks_cons ks (by simp), List.flatMap_append, flatMap_appendLast
      h.comma, flatMap_commaChunks (ls :: kss), ← List.flatMap_cons]

theorem flatMap_entryChunks (entries : List Text) :
    (entryChunks entries).flatMap f = entries.flatMap f := by
  rw [entryChunks, h.flatMap_commaChunks, List.flatMap_map]
  simp

theorem flatMap_bracketed (ks : List Text) :
    (bracketed ks).flatMap f = ks.flatMap f := by
  cases ks with
  | nil => rfl
  | cons k ks =>
    rw [bracketed, flatMap_appendLast h.closing, List.flatMap_cons,
      List.flatMap_cons, h.opening]

/-- A keyword and a text behind it. -/
theorem flatMap_pair {word : Text} (hw : ∀ c ∈ word, c.isLower = true ∨ c = ' ')
    (t : Text) : [o.keyword word, t].flatMap f = f t := by
  simp only [List.flatMap_cons, List.flatMap_nil, h.keyword o hw,
    List.nil_append, List.append_nil]

/-- From a column is collected what its tokens hold. -/
theorem column (column : Column) :
    (column.chunks o).flatMap f = column.tokens.flatMap (f ·.text) := by
  obtain ⟨expression, _ | name⟩ := column
  · simp [Column.chunks, Column.tokens, Token.text]
  · have hpair : [o.keyword "as".toList, name].flatMap f = f name :=
      h.flatMap_pair o (by decide) name
    rw [Column.chunks, List.flatMap_cons, hpair]
    simp [Column.tokens, Token.text]

/-- From the conditions is collected what their predicates hold. -/
theorem conditions {word : Text} (hw : ∀ c ∈ word, c.isLower = true ∨ c = ' ')
    (conds : List Condition) : (conditionChunks o word conds).flatMap f =
      (conds.flatMap Condition.tokens).flatMap (f ·.text) := by
  cases conds with
  | nil => rfl
  | cons first more =>
    have hmore : ∀ c : Condition,
        [o.keyword c.combinator.word, c.predicate].flatMap f = f c.predicate :=
      fun c => h.flatMap_pair o (by cases c.combinator <;> decide) _
    rw [conditionChunks, List.flatMap_cons, h.keyword o hw, List.nil_append,
      List.flatMap_cons, List.flatMap_assoc, List.flatMap_assoc,
      List.flatMap_cons]
    simp [hmore, Condition.tokens, Token.text]

/-- From a list is collected what its entries hold. -/
theorem list {word : Text} (hw : ∀ c ∈ word, c.isLower = true ∨ c = ' ')
    (entries : List Text) :
    (listChunks o word entries).flatMap f =
      (entries.map Token.piece).flatMap (f ·.text) := by
  have hby : f (byChunk o word) = [] :=
    h.letters _ (((lettered_keyword o hw).append lettered_space).append
      (lettered_keyword o (by decide)))
  rw [listChunks, List.flatMap_map]
  split
  · next h₀ =>
    obtain rfl : entries = [] := by simpa using h₀
    rfl
  · rw [List.flatMap_cons, hby, List.nil_append, h.flatMap_entryChunks]
    rfl

theorem expression {word : Text} (hw : ∀ c ∈ word, c.isLower = true ∨ c = ' ')
    (expression : Option Text) :
    (expressionChunks o word expression).flatMap f =
      (expression.toList.map Token.piece).flatMap (f ·.text) := by
  cases expression with
  | none => rfl
  | some text =>
    have := h.flatMap_pair o hw text
    simpa [expressionChunks, Token.text] using this

theorem joinChunk (kind : JoinKind) : f (joinChunk o kind) = [] := by
  have hjoin : Lettered (o.keyword "join".toList) :=
    lettered_keyword o (by decide)
  have key : ∀ word : Text, (∀ c ∈ word, c.isLower = true ∨ c = ' ') →
      f (o.keyword word ++ [' '] ++ o.keyword "join".toList) = [] :=
    fun word hw =>
    h.letters _ (((lettered_keyword o hw).append lettered_space).append hjoin)
  cases kind with
  | plain => exact h.letters _ hjoin
  | left => exact key _ (by decide)
  | right => exact key _ (by decide)
  | inner => exact key _ (by decide)
  | outer => exact key _ (by decide)
  | full => exact key _ (by decide)
  | cross => exact key _ (by decide)

/-- From `select` is collected what the tokens of the columns hold. -/
theorem select (distinct : Bool) (columns : List Column) :
    (selectChunks o distinct columns).flatMap f =
      (columns.flatMap Column.tokens).flatMap (f ·.text) := by
  have hselect : f (o.keyword "select".toList) = [] := h.keyword o (by decide)
  have hdistinct : (if distinct then
      [o.keyword "distinct".toList] else []).flatMap f = [] := by
    cases distinct with
    | false => rfl
    | true =>
      have : f (o.keyword "distinct".toList) = [] := h.keyword o (by decide)
      rw [if_pos rfl, List.flatMap_cons, this]
      rfl
  rw [selectChunks, List.flatMap_append, List.flatMap_cons, hselect, hdistinct,
    h.flatMap_commaChunks, List.flatMap_map, List.flatMap_assoc]
  simp [h.column o]

/-- From a join's condition is collected what its predicate or its columns
hold. -/
theorem joinCondition (onPredicate : Option Text) (usingColumns : List Text) :
    (joinConditionChunks o onPredicate usingColumns).flatMap f =
      (onPredicate.toList.map Token.piece ++ (if usingColumns.isEmpty then
      [] else .opening :: usingColumns.map .piece ++
      [.closing] : List Token)).flatMap (f ·.text) := by
  obtain ⟨ho, hc⟩ := h.brackets
  have husing : f (o.keyword "using".toList) = [] := h.keyword o (by decide)
  rw [joinConditionChunks, List.flatMap_append, List.flatMap_append,
    h.expression o (by decide)]
  congr 1
  split
  · rfl
  · rw [List.flatMap_cons, husing, List.nil_append, h.flatMap_bracketed,
      h.flatMap_entryChunks, List.cons_append, List.flatMap_cons,
      List.flatMap_append, ho, List.flatMap_map]
    simpa [Token.text] using hc

mutual

/-- What is collected from the chunks of a query is what is collected from its
tokens. -/
theorem flatMap_chunks :
    ∀ q : Query, (q.chunks o).flatMap f = q.tokens.flatMap (f ·.text)
  | { distinct, columns, source, joins, filter, groupBy, having, orderBy, limit,
      offset, literals, depth } => by
    have hfrom : f (o.keyword "from".toList) = [] := h.keyword o (by decide)
    rw [Query.chunks, Query.tokens]
    simp only [List.flatMap_append, List.flatMap_cons, hfrom, List.nil_append]
    rw [h.select, flatMap_sourceChunks source, flatMap_joinChunks joins,
      h.conditions o (by decide), h.list o (by decide),
      h.conditions o (by decide), h.list o (by decide),
      h.expression o (by decide), h.expression o (by decide)]

/-- From a source is collected what its tokens hold, those of a query in
brackets among them. -/
theorem flatMap_sourceChunks :
    ∀ s : Source, (s.chunks o).flatMap f = s.tokens.flatMap (f ·.text)
  | .table name aliasName => by
    rw [Source.chunks, Source.tokens, List.flatMap_cons, List.flatMap_cons,
      List.flatMap_map]
    rfl
  | .subquery query aliasName => by
    obtain ⟨ho, hc⟩ := h.brackets
    rw [Source.chunks, Source.tokens, List.flatMap_append, h.flatMap_bracketed,
      flatMap_chunks query, List.cons_append, List.flatMap_cons, ho,
      List.flatMap_append, List.flatMap_cons, hc, List.flatMap_map]
    rfl

/-- From joins is collected what their tokens hold. -/
theorem flatMap_joinChunks : ∀ js : List Join,
    (Join.allChunks o js).flatMap f = (Join.allTokens js).flatMap (f ·.text)
  | [] => rfl
  | { kind, source, onPredicate, usingColumns } :: more => by
    have hcond := h.joinCondition o onPredicate usingColumns
    rw [Join.allChunks, Join.allTokens, Join.chunks, Join.tokens,
      List.append_assoc source.tokens, List.flatMap_append, List.flatMap_append,
      List.flatMap_append, List.flatMap_append, ← hcond, flatMap_joinChunks
      more, List.flatMap_cons, flatMap_sourceChunks source, h.joinChunk]
    rfl

end

end Collects

/-- What holds of keywords and of all tokens holds of all chunks, if commas and
brackets do not change it. -/
theorem forall_chunks {p : Text → Bool} (letters : ∀ t, Lettered t → p t = true)
    (comma : ∀ t, p (t ++ [',']) = p t) (opening : ∀ t, p (['('] ++ t) = p t)
    (closing : ∀ t, p (t ++ [')']) = p t) (o : Options) (q : Query)
    (hq : ∀ k ∈ q.tokens, p k.text = true) : ∀ k ∈ q.chunks o, p k = true := by
  -- collect a mark from every text for which `p` fails
  have hc : Collects fun t => if p t then [] else [()] :=
    ⟨fun t ht => by simp [letters t ht], fun t => by simp [comma],
      fun t => by rw [opening], fun t => by simp [closing]⟩
  intro k hk
  by_contra hp
  have hm : () ∈ (q.chunks o).flatMap fun t => if p t then [] else [()] :=
    List.mem_flatMap.2 ⟨k, hk, by simp [hp]⟩
  rw [hc.flatMap_chunks] at hm
  obtain ⟨t, ht, hm⟩ := List.mem_flatMap.1 hm
  simp [hq t ht] at hm

end SqlRiver
