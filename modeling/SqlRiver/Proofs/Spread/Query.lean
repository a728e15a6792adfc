import SqlRiver.Layout.RoundTrip
import SqlRiver.Proofs.Layout.Reread
import SqlRiver.Proofs.Spread.Joins

/-!
# Queries of spread texts

A text that is read gives the query that the spread text gives, but for
blanks, as soon as the clauses of its normal form do. The first word, the
brackets, the quotes and the placeholders of a text are those of the spread
text, and what white space is normalised to is spread as well.

Main definitions and statements:

* `Query.squeezed`: a query without the blanks of its texts.
* `Spread.alike_readStatement`, `Spread.alike_readQuery`: from the clauses of
  a query to the query.
* `Spread.normalize`, `Spread.alike_readMasked`: normal forms.
* `Spread.unusedMarks_eq`: the tag of placeholders.
* `normal_of_inert`: the texts that are spread.
* `Spread.parse_eq`: from the normal form to the text.
-/

namespace SqlRiver

open Text

/-! ## Queries without blanks -/

/-- A column without the blanks of its texts. -/
def Column.squeezed (column : Column) : Column :=
  ⟨column.expression.squeeze, column.aliasName.map squeeze⟩

mutual

/-- A query without the blanks of its texts. -/
def Query.squeezed : Query → Query
  | { distinct, columns, source, joins, filter, groupBy, having, orderBy, limit,
      offset, literals, depth } =>
    { distinct, columns := columns.map Column.squeezed
      source := Source.squeezed source, joins := Join.allSqueezed joins
      filter := filter.map Condition.squeezed, groupBy := groupBy.map squeeze
      having := having.map Condition.squeezed, orderBy := orderBy.map squeeze
      limit := limit.map squeeze, offset := offset.map squeeze
      literals, depth }

/-- A source without the blanks of its texts. -/
def Source.squeezed : Source → Source
  | .table name aliasName => .table name.squeeze (aliasName.map squeeze)
  | .subquery query aliasName =>
    .subquery (Query.squeezed query) (aliasName.map squeeze)

/-- A join without the blanks of its texts. -/
def Join.squeezed : Join → Join
  | { kind, source, onPredicate, usingColumns } =>
    { kind, source := Source.squeezed source,
      onPredicate := onPredicate.map squeeze
      usingColumns := usingColumns.map squeeze }

/-- Joins without the blanks of their texts. -/
def Join.allSqueezed : List Join → List Join
  | [] => []
  | join :: more => Join.squeezed join :: Join.allSqueezed more

end

theorem allSqueezed_eq_map :
    ∀ js : List Join, Join.allSqueezed js = js.map Join.squeezed
  | [] => rfl
  | j :: js => by rw [Join.allSqueezed, List.map_cons, allSqueezed_eq_map js]

theorem squeeze_squeeze (t : Text) : t.squeeze.squeeze = t.squeeze := by
  simp only [Text.squeeze, List.filter_filter, Bool.and_self]

/-- Without its blanks a join does not tell whether those of its predicate were
taken out before. -/
theorem squeezed_squeezedOn (j : Join) :
    j.squeezedOn.squeezed = j.squeezed := by
  obtain ⟨kind, source, onPredicate, usingColumns⟩ := j
  cases onPredicate <;> simp [Join.squeezedOn, Join.squeezed, squeeze_squeeze]

/-- Joins that differ in the blanks of their predicates only. -/
theorem map_squeezed_of_squeezedOn {js js' : List Join}
    (h : js'.map Join.squeezedOn = js.map Join.squeezedOn) :
    js'.map Join.squeezed = js.map Join.squeezed := by
  have := congrArg (List.map Join.squeezed) h
  simpa only [List.map_map, Function.comp_def, squeezed_squeezedOn] using this

variable {s : Char} {G : Text → Prop} {t u : Text} {nested : Nested}
  {literals : LiteralTable} {level : Nat}

/-! ## Statements -/

/-- What is left behind the clauses is refused alike. -/
theorem Spread.alike_finish (h : Spread s G 0 t u) :
    Alike Eq (finish literals t) (finish literals u) := by
  simp only [finish, h.isEmpty_eq]
  split
  · rfl
  · trivial

theorem firstWord_append {w v : Text}
    (hw : ∀ c ∈ w, isBlank c = false ∧ c ≠ '(') :
    firstWord (w ++ v) = w ++ firstWord v := by
  refine List.takeWhile_append_of_pos fun c hc => ?_
  simp [hw c hc]

/-- A word with a sign is no keyword. -/
theorem ofWord?_of_mem [Sign s] {w : Text} (h : s ∈ w) :
    Keyword.ofWord? w = none := by
  refine List.find?_eq_none.2 fun k hk he => ?_
  have hall : ∀ k ∈ Keyword.all, ∀ c ∈ k.text, c.isLower = true := by decide
  have hl := hall k hk s.toLower (by
    rw [beq_iff_eq.1 he]
    exact List.mem_map_of_mem h)
  rw [Sign.not_letter s] at hl
  cases hl

/-- The first word up to a sign is one of the spread text, and no keyword goes
on behind a sign. -/
theorem Spread.ofWord?_firstWord [Sign s] (h : Spread s G 0 t u) :
    Keyword.ofWord? (firstWord u) = Keyword.ofWord? (firstWord t) := by
  have hsplit :
      firstWord t ++ t.dropWhile (fun c => !(isBlank c || c == '(')) = t :=
    List.takeWhile_append_dropWhile
  have hword : ∀ c ∈ firstWord t, isBlank c = false ∧ c ≠ '(' := by
    intro c hc
    simpa using List.mem_takeWhile_imp hc
  by_cases hsign : s ∈ firstWord t
  · obtain ⟨a, b, e, ha⟩ := List.eq_append_cons_of_mem hsign
    have hmem : s ∈ firstWord u := by
      rw [← hsplit, e, List.append_assoc, List.cons_append] at h
      obtain ⟨a', v, rfl, ha', hv⟩ := h.exists_append
      obtain rfl := ha'.eq_of_not_mem ha
      rw [firstWord_append fun c hc => hword c (by rw [e]; simp [hc])]
      obtain ⟨v, rfl⟩ : ∃ v', v = s :: v' :=
        List.head?_eq_some_iff.1 hv.head?_eq
      have hfirst : firstWord ([s] ++ v) = [s] ++ firstWord v := by
        refine firstWord_append fun c hc => hword c ?_
        rw [e, List.mem_singleton.1 hc]
        simp
      rw [List.singleton_append] at hfirst
      simp [hfirst]
    rw [ofWord?_of_mem hsign, ofWord?_of_mem hmem]
  · rw [← hsplit] at h
    obtain ⟨w, v, rfl, hw, hv⟩ := h.exists_append
    obtain rfl := hw.eq_of_not_mem hsign
    have hnil : firstWord v = [] := by
      have := List.head?_dropWhile_not (fun c => !(isBlank c || c == '(')) t
      rw [← hv.head?_eq] at this
      cases v with
      | nil => rfl
      | cons c v => simpa [firstWord, List.takeWhile_cons] using this
    rw [firstWord_append hword, hnil, List.append_nil]

/-- Both texts start with the same keyword. -/
theorem Spread.alike_readStatement [Sign s] {R : Query → Query → Prop}
    (h : Spread s G 0 t u)
    (hclauses : Alike R (readClauses nested literals level t)
      (readClauses nested literals level u)) :
    Alike R (readStatement nested literals level t)
      (readStatement nested literals level u) := by
  simp only [readStatement, h.isEmpty_eq, h.ofWord?_firstWord]
  split
  · trivial
  · cases Keyword.ofWord? (firstWord t) with
    | none => trivial
    | some k =>
      simp only
      split
      · exact hclauses
      · split <;> trivial

/-- The room for queries in brackets does not matter. -/
theorem Spread.alike_readQuery [Sign s] {R : Query → Query → Prop} (room : Nat)
    (h : Spread s G 0 t u)
    (hclauses : ∀ nested level, Alike R (readClauses nested literals level t)
      (readClauses nested literals level u)) :
    Alike R (readQuery literals room t) (readQuery literals room u) := by
  cases room with
  | zero => exact h.alike_readStatement (hclauses _ _)
  | succ room => exact h.alike_readStatement (hclauses _ _)

/-! ## Normal forms -/

/-- The semicolon at the end is dropped, with the blanks before it. -/
theorem normalize_semicolon {b v : Text}
    (hb : ∀ c ∈ (b ++ [';']).head?, isBlank c = false)
    (hv : collapse v = b ++ [';']) : Text.normalize v = trim b := by
  have hstart : trimStart b = b := by
    cases b with
    | nil => rfl
    | cons c b => exact trimStart_pad (l := []) blank_nil hb
  have hrev : (b ++ [';']).reverse = ';' :: b.reverse := by simp
  rw [Text.normalize, hv, hrev]
  show trimEnd b.reverse.reverse = trim b
  rw [List.reverse_reverse, trim, hstart]

theorem trimmed_normalize (t : Text) : Trimmed t.normalize := by
  have htrim := trimmed_of_spaced (spaced_collapse t)
  by_cases hl : t.collapse.getLast? = some ';'
  · obtain ⟨b, e⟩ := List.getLast?_eq_some_iff.1 hl
    rw [normalize_semicolon (e ▸ htrim.start) e]
    exact trimmed_trim b
  · rwa [normalize_eq_collapse hl]

/-- Blanks are normalised alike, and the same semicolon is dropped. -/
theorem Spread.normalize [Sign s] (hG : Kept G) (hs : s ≠ ';')
    (hsp : t.Spaced) (hu : Thin u) (h : Spread s G 0 t u) :
    Spread s G 0 (Text.normalize t) (Text.normalize u) := by
  have htrim := trimmed_of_spaced hsp
  have h : Spread s G 0 t u.trim := by
    have := h.trim hG
    rwa [trim_of_trimmed htrim] at this
  have hcollapse : collapse u = u.trim := by
    obtain ⟨l, r, -, -, e⟩ := exists_trim u
    have hthin : Thin u.trim := hu.of_isInfix ⟨l, r, e.symm⟩
    have := spaced_of_thin _ hthin (trimmed_trim _)
    rwa [Spaced, collapse, words_trim] at this
  by_cases hl : t.getLast? = some ';'
  · obtain ⟨b, rfl⟩ := List.getLast?_eq_some_iff.1 hl
    have hcut : Apart b [';'] := .inr (by rintro _ ⟨⟩; rfl)
    obtain ⟨b', r, e, hb, hr⟩ := h.cut hG hcut
    obtain rfl := hr.eq_of_not_mem (by simpa using hs)
    have hstart : ∀ c ∈ (b' ++ [';']).head?, isBlank c = false := by
      rw [← e, h.head?_eq]
      exact htrim.start
    rw [normalize_semicolon htrim.start hsp,
      normalize_semicolon hstart (hcollapse.trans e)]
    exact hb.trim hG
  · have hl' : (collapse u).getLast? ≠ some ';' := by
      rw [hcollapse]
      rcases h.getLast?_cases with hlast | ⟨-, hlast, -⟩
      · rwa [hlast]
      · simp [hlast]
    rw [normalize_eq_collapse (by rwa [hsp]), normalize_eq_collapse hl', hsp,
      hcollapse]
    exact h

/-- A text and the spread text give alike queries, if their normal forms
do. -/
theorem Spread.alike_readMasked {R : Query → Query → Prop}
    (h : Spread s G 0 t.normalize u.normalize)
    (hq : isBalanced t.normalize = true →
      Alike R (readQuery literals maxDepth t.normalize.trim)
        (readQuery literals maxDepth u.normalize.trim)) :
    Alike R (readMasked literals t) (readMasked literals u) := by
  simp only [readMasked, h.isEmpty_eq, h.isBalanced_eq]
  split
  · trivial
  · split
    · trivial
    · next hb => exact hq (by simpa using hb)

/-! ## Texts -/

/-- A text without blanks and semicolons is found in the normal form. -/
theorem infix_normalize {w : Text} (h₀ : w ≠ [])
    (hb : ∀ c ∈ w, isBlank c = false) (hs : ';' ∉ w) (t : Text) :
    w <:+: t.normalize ↔ w <:+: t := by
  have hwords (v : Text) : ¬ w <:+: v ↔ ∀ x ∈ words v, ¬ w <:+: x := by
    refine forall_words (P := fun v => ¬ w <:+: v) (by simpa using h₀)
      (fun x c y hc => ?_) v
    have hw : c ∉ w := fun hm => by simp [hb c hm] at hc
    rw [infix_append_cons hw, not_or]
  have hcollapse : w <:+: t.collapse ↔ w <:+: t := by
    rw [← not_iff_not, hwords, hwords, words_collapse]
  rw [← hcollapse]
  rcases normalize_cases t with e | ⟨r, hr, e⟩
  · rw [e]
  · have hblank : w <:+: t.normalize ++ r ↔ w <:+: t.normalize := by
      rw [← not_iff_not, hwords, hwords]
      by_cases hr₀ : r = []
      · rw [hr₀, List.append_nil]
      · have := words_append_blank hr hr₀ t.normalize []
        rw [List.append_nil] at this
        rw [this, words_blank blank_nil, List.append_nil]
    rw [e, infix_append_cons hs, hblank, List.infix_nil, or_iff_left h₀]

/-- The tag depends on the normal form. -/
theorem Spread.unusedMarks_eq [Sign s] {n : Text} (h : Spread s G 0 n u)
    (hn : n.normalize = t.normalize) :
    LiteralTable.unusedMarks u = LiteralTable.unusedMarks t := by
  refine LiteralTable.unusedMarks_congr fun marks => ?_
  have hnot {c : Char} (hc : isWordChar c = false) :
      c ∉ LiteralTable.tagOf marks :=
    @LiteralTable.not_mem_tag ⟨marks, []⟩ c hc
  have h₀ : LiteralTable.tagOf marks ≠ [] :=
    LiteralTable.tag_ne_nil ⟨marks, []⟩
  have hb : ∀ c ∈ LiteralTable.tagOf marks, isBlank c = false := by
    intro c hc
    rw [Bool.eq_false_iff]
    exact fun hb => hnot (isWordChar_of_isBlank hb) hc
  have hs : ';' ∉ LiteralTable.tagOf marks := hnot rfl
  rw [h.infix_iff (hnot Sign.not_word) (hnot rfl), ← infix_normalize h₀ hb hs n,
    hn, infix_normalize h₀ hb hs t]

/-- An inert text is read as it stands, and nothing is restored. -/
theorem parse_inert {s : Text} (h : inert s = true) :
    parse s = readMasked ⟨LiteralTable.unusedMarks s, []⟩ s := by
  rw [parse, protect_inert h]
  show (readMasked _ _ >>= fun q => Except.ok q.restoreColumns) = readMasked _ _
  cases hr : readMasked ⟨LiteralTable.unusedMarks s, []⟩ s with
  | error e => rfl
  | ok q =>
    exact congrArg Except.ok
      (Query.restoreColumns_entryless rfl q (shape_readMasked hr).2)

/-- Either normal form of an inert text is spaced and inert, and has the same
normal form. -/
theorem normal_of_inert {n : Text} (ht : inert t = true)
    (hn : n = t.collapse ∨ n = t.normalize ∧ n.getLast? ≠ some ';') :
    n.Spaced ∧ n.normalize = t.normalize ∧ inert n = true := by
  rcases hn with rfl | ⟨rfl, hl⟩
  · refine ⟨spaced_collapse t, ?_, ?_⟩
    · rw [Text.normalize, spaced_collapse t]
      rfl
    · rwa [inert_words, words_collapse, ← inert_words]
  · have hsp : t.normalize.Spaced :=
      spaced_of_thin _ (thin_normalize t) (trimmed_normalize t)
    refine ⟨hsp, ?_, inert_normalize ht⟩
    rw [normalize_eq_collapse (by rwa [hsp]), hsp]

/-- An inert text gives the query that its spread normal form gives, but for
blanks, if both are read alike. -/
theorem Spread.parse_eq [Sign s] {n : Text} (ht : inert t = true)
    (hn : n.normalize = t.normalize) (hi : inert n = true)
    (h : Spread s G 0 n u)
    (hread : ∀ literals, Alike (fun q q' => q'.squeezed = q.squeezed)
      (readMasked literals n) (readMasked literals u)) :
    (parse u).toOption.map Query.squeezed =
      (parse t).toOption.map Query.squeezed := by
  have hu : inert u = true := h.inert_eq.trans hi
  rw [parse_inert hu, parse_inert ht, h.unusedMarks_eq hn,
    (hread _).toOption_eq, readMasked, readMasked, hn]

end SqlRiver
