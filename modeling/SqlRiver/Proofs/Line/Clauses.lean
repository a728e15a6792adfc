import SqlRiver.Proofs.Line.Lists

/-!
# Clauses that are read back

On the line of a query a space stands between each two chunks. A reader that
takes its clause off such a text leaves the chunks that are left, again with
spaces between them.

Main definitions and statements:

* `led`: chunks with a space before each of them.
* `Neat`: chunks that spaces can divide.
* `Leads`: the chunks that follow start with one of several keywords.
* `readTrailing_line`, `readOrderBy_line`: the clauses at the end.
* `readFilter_line`, `readGroupBy_line`, `readHaving_line`: the clauses behind
  the joins.
-/

namespace SqlRiver

open Text

variable {w word p x y z : Text} {o : Options} {ks ls : List Text}

/-! ## Chunks with spaces between them -/

/-- The chunks with a space before each of them. -/
def led (ks : List Text) : Text := ks.flatMap ([' '] ++ ·)

@[simp] theorem led_nil : led [] = [] := rfl

@[simp] theorem led_cons (k : Text) (ks : List Text) :
    led (k :: ks) = ' ' :: (k ++ led ks) := by
  simp [led]

theorem led_append (ks ls : List Text) : led (ks ++ ls) = led ks ++ led ls := by
  simp [led]

theorem join_cons_led (k : Text) (ks : List Text) :
    join [' '] (k :: ks) = k ++ led ks :=
  join_cons [' '] k ks

theorem led_eq_cons (h : ks ≠ []) : led ks = ' ' :: join [' '] ks := by
  obtain ⟨k, ks, rfl⟩ := List.exists_cons_of_ne_nil h
  rw [led_cons, join_cons_led]

theorem join_append_led (h : ks ≠ []) (ls : List Text) :
    join [' '] (ks ++ ls) = join [' '] ks ++ led ls := by
  obtain ⟨k, ks, rfl⟩ := List.exists_cons_of_ne_nil h
  rw [List.cons_append, join_cons_led, join_cons_led, led_append,
    List.append_assoc]

theorem join_append_of_led (h : led ks = ' ' :: x) (ls : List Text) :
    join [' '] (ks ++ ls) = x ++ led ls := by
  have h₀ : ks ≠ [] := by
    rintro rfl
    cases h
  rw [led_eq_cons h₀] at h
  rw [join_append_led h₀, (List.cons.inj h).2]

/-- The chunks have single spaces inside and none around them. -/
def Neat (ks : List Text) : Prop := ∀ k ∈ ks, k.Spaced ∧ k ≠ []

theorem neat_append : Neat (ks ++ ls) ↔ Neat ks ∧ Neat ls :=
  List.forall_mem_append

theorem neat_cons {k : Text} : Neat (k :: ks) ↔ (k.Spaced ∧ k ≠ []) ∧ Neat ks :=
  List.forall_mem_cons

theorem neat_nil : Neat [] := fun _ h => by cases h

theorem Neat.trimmed (h : Neat ks) : (join [' '] ks).Trimmed :=
  (trimmed_join [' '] (fun k hk => trimmed_of_spaced (h k hk).1) fun k hk =>
    (h k hk).2).1

theorem Neat.spaced (h : Neat ks) : (join [' '] ks).Spaced :=
  spaced_join (fun k hk => (h k hk).1) fun k hk => (h k hk).2

/-- Trimming takes the first space off neat chunks. -/
theorem Neat.trim_led (h : Neat ks) : (led ks).trim = join [' '] ks := by
  by_cases h₀ : ks = []
  · subst h₀
    rfl
  · rw [led_eq_cons h₀, ← List.singleton_append,
      trim_padStart blank_space h.trimmed]

/-! ## Chunks of lists -/

/-- The line of a list is the row of the lines of its entries. -/
theorem join_commaChunks : ∀ {kss : List (List Text)}, (∀ ks ∈ kss, ks ≠ []) →
    join [' '] (commaChunks kss) = rowText (kss.map (join [' ']))
  | [], _ => rfl
  | [ks], _ => rfl
  | ks :: ls :: kss, h => by
    have hks := h ks (by simp)
    have hrest : ∀ xs ∈ ls :: kss, xs ≠ [] :=
      fun xs hxs => h xs (List.mem_cons_of_mem _ hxs)
    have hne : commaChunks (ls :: kss) ≠ [] :=
      commaChunks_ne_nil (by simp) hrest
    rw [commaChunks_cons ks (by simp), join_append _ (appendLast_ne_nil _ hks)
      hne, join_appendLast _ _ hks, join_commaChunks hrest]
    simp [rowText, join]

theorem join_entryChunks (entries : List Text) :
    join [' '] (entryChunks entries) = rowText entries := by
  rw [entryChunks, join_commaChunks, List.map_map]
  · congr 1
    exact List.map_id entries
  · intro ks hks
    obtain ⟨e, -, rfl⟩ := List.mem_map.1 hks
    simp

theorem join_bracketed (h : ks ≠ []) :
    join [' '] (bracketed ks) = '(' :: (join [' '] ks ++ [')']) := by
  obtain ⟨k, ks, rfl⟩ := List.exists_cons_of_ne_nil h
  rw [bracketed, join_appendLast _ _ (by simp), join_cons_led, join_cons_led]
  simp

/-- A character that sticks to the last chunk. -/
theorem Neat.appendLast (h : Neat ks) (h₀ : ks ≠ []) {c : Char}
    (hc : isBlank c = false) : Neat (appendLast [c] ks) := by
  obtain ⟨ks, k, rfl⟩ := (List.eq_nil_or_concat' ks).resolve_left h₀
  obtain ⟨hks, hk⟩ := neat_append.1 h
  obtain ⟨hk, hk₀⟩ := hk k (by simp)
  rw [appendLast_concat]
  exact neat_append.2 ⟨hks,
    neat_cons.2 ⟨⟨spaced_concat hk hk₀ hc, by simp⟩, neat_nil⟩⟩

/-- The chunks have single spaces inside and none around them, and together they
have balanced brackets. -/
structure Fit (ks : List Text) : Prop where
  neat : Neat ks
  balanced : isBalanced (led ks) = true

theorem fit_nil : Fit [] := ⟨neat_nil, rfl⟩

theorem Fit.append (hks : Fit ks) (hls : Fit ls) : Fit (ks ++ ls) := by
  refine ⟨neat_append.2 ⟨hks.neat, hls.neat⟩, ?_⟩
  rw [led_append, isBalanced_append (depth_of_isBalanced hks.balanced)]
  exact ⟨hks.balanced, hls.balanced⟩

theorem isBalanced_space : isBalanced (' ' :: x) = isBalanced x := rfl

theorem fit_single (h : Tidy p) : Fit [p] := by
  refine ⟨neat_cons.2 ⟨⟨h.spaced, h.ne_nil⟩, neat_nil⟩, ?_⟩
  rw [led_cons, led_nil, List.append_nil, isBalanced_space]
  exact h.balanced

theorem Fit.cons (h : Tidy p) (hks : Fit ks) : Fit (p :: ks) :=
  (fit_single h).append hks

theorem Fit.line (h : Fit ks) : isBalanced (join [' '] ks) = true := by
  by_cases h₀ : ks = []
  · subst h₀
    rfl
  · have hb := h.balanced
    rwa [led_eq_cons h₀, isBalanced_space] at hb

/-- A comma behind the last chunk. -/
theorem Fit.comma (h : Fit ks) (h₀ : ks ≠ []) : Fit (appendLast [','] ks) := by
  have hled : led (appendLast [','] ks) = led ks ++ [','] := by
    rw [led_eq_cons (appendLast_ne_nil _ h₀), led_eq_cons h₀,
      join_appendLast _ _ h₀, List.cons_append]
  refine ⟨h.neat.appendLast h₀ rfl, ?_⟩
  rw [hled, isBalanced_append (depth_of_isBalanced h.balanced)]
  exact ⟨h.balanced, rfl⟩

/-- Fit chunks are fit in brackets. -/
theorem Fit.bracketed (h : Fit ks) (h₀ : ks ≠ []) : Fit (bracketed ks) := by
  refine ⟨?_, ?_⟩
  · obtain ⟨k, ks, rfl⟩ := List.exists_cons_of_ne_nil h₀
    obtain ⟨⟨hk, hk₀⟩, hks⟩ := neat_cons.1 h.neat
    have hneat : Neat ((['('] ++ k) :: ks) :=
      neat_cons.2 ⟨⟨spaced_cons hk hk₀ rfl, by simp⟩, hks⟩
    exact hneat.appendLast (by simp) rfl
  · rw [led_eq_cons (bracketed_ne_nil h₀), join_bracketed h₀, isBalanced_space]
    exact isBalanced_brackets h.line

/-- The chunks of a list are fit if those of each entry are. -/
theorem fit_commaChunks :
    ∀ {kss : List (List Text)}, (∀ ks ∈ kss, Fit ks ∧ ks ≠ []) →
      Fit (commaChunks kss)
  | [], _ => fit_nil
  | [ks], h => (h ks (by simp)).1
  | ks :: ls :: kss, h => by
    rw [commaChunks_cons ks (by simp)]
    obtain ⟨hks, h₀⟩ := h ks (by simp)
    exact (hks.comma h₀).append (fit_commaChunks fun xs hxs =>
      h xs (List.mem_cons_of_mem _ hxs))

theorem fit_entryChunks {entries : List Text} (h : ∀ e ∈ entries, Tidy e) :
    Fit (entryChunks entries) := by
  refine fit_commaChunks fun ks hks => ?_
  obtain ⟨e, he, rfl⟩ := List.mem_map.1 hks
  exact ⟨fit_single (h e he), by simp⟩

/-- A keyword and a list behind it. -/
theorem led_listChunks {entries : List Text} (h : entries ≠ []) :
    led (listChunks o word entries) =
      ' ' :: (byChunk o word ++ ' ' :: rowText entries) := by
  have hne := entryChunks_ne_nil h
  rw [listChunks, if_neg (by simpa using h), led_cons, led_eq_cons hne,
    join_entryChunks]

theorem listChunks_nil : listChunks o word [] = [] := rfl

/-- A keyword of two words is its phrase in either case. -/
theorem lower_byChunk (word : Text) :
    (byChunk o word).lower = (word ++ " by".toList).lower := by
  rw [byChunk, Text.lower, List.map_append, List.map_append]
  have h₁ : (o.keyword word).map Char.toLower = word.map Char.toLower :=
    lower_keyword o word
  have h₂ : (o.keyword "by".toList).map Char.toLower = "by".toList :=
    lower_keyword o _
  rw [h₁, h₂]
  simp [Text.lower]

theorem lower_orderBy :
    (byChunk o "order".toList).lower = Clause.orderBy.phrase.lower :=
  (lower_byChunk _).trans (by decide)

theorem lower_groupBy :
    (byChunk o "group".toList).lower = Clause.groupBy.phrase.lower :=
  (lower_byChunk _).trans (by decide)

/-! ## Clauses at the end -/

theorem absent_space (hw : isPhrase w = true) (h : Absent w p) :
    Absent w (' ' :: p) :=
  absent_append hw (absentIn_space hw p) rfl h

/-- A keyword between two texts of the top level stands there. -/
theorem stands_keyword {m : Text} (hm : m.lower = word.lower) (hx : depth x = 0)
    (y : Text) : Stands word (x ++ [' ']) m (' ' :: y) := by
  refine ⟨hm, by simp [hx, depthStep], ?_, rfl⟩
  rw [List.getLast?_concat]
  rfl

section Trailing

variable {clause : Clause} (hks : Neat ks) (h₀ : ks ≠ [])
  (hd : depth (join [' '] ks) = 0)
include hks h₀ hd

/-- An expression at the end is read back. -/
theorem readTrailing_line {e : Option Text}
    (he : ∀ p ∈ e, Tidy p ∧ Absent clause.phrase p)
    (hn : e = none → Absent clause.phrase (join [' '] ks)) :
    readTrailing clause (join [' ']
      (ks ++ expressionChunks o clause.phrase e)) = .ok (e, join [' '] ks) := by
  rw [readTrailing_eq_ok_iff]
  cases e with
  | none =>
    rw [expressionChunks, Option.toList_none, List.flatMap_nil, List.append_nil]
    exact .inl ⟨hn rfl, rfl, rfl⟩
  | some p =>
    obtain ⟨hp, habs⟩ := he p rfl
    refine .inr ⟨join [' '] ks ++ [' '], o.keyword clause.phrase, ' ' :: p, ?_,
      stands_keyword (lower_keyword o _) hd p,
      absent_space (isPhrase_phrase clause) habs, ?_, ?_,
      (trim_padEnd hks.trimmed blank_space).symm⟩
    · rw [join_append_led h₀]
      simp [expressionChunks]
    · rw [← List.singleton_append, trim_padStart blank_space hp.trimmed]
      exact hp.ne_nil
    · rw [← List.singleton_append, trim_padStart blank_space hp.trimmed]

/-- The `order by` list is read back. -/
theorem readOrderBy_line {entries : List Text} (ht : ∀ e ∈ entries, Tidy e)
    (hc : ∀ e ∈ entries, NoTop isComma e)
    (ha : ∀ e ∈ entries, Absent Clause.orderBy.phrase e)
    (hn : entries = [] → Absent Clause.orderBy.phrase (join [' '] ks)) :
    readOrderBy (join [' '] (ks ++ listChunks o "order".toList entries)) =
      .ok (entries, join [' '] ks) := by
  have hw := isPhrase_phrase .orderBy
  rw [readOrderBy_eq_ok_iff]
  by_cases he : entries = []
  · subst he
    rw [listChunks_nil, List.append_nil]
    exact .inl ⟨hn rfl, rfl, rfl⟩
  · have hclear := clear_list hw (fun e he => (ht e he).top) ha
    have htrim := trimmed_tidy [',', ' '] he ht
    refine .inr ⟨join [' '] ks ++ [' '], byChunk o "order".toList,
      ' ' :: rowText entries, ?_, stands_keyword lower_orderBy hd _,
      absent_space hw (hclear.absent hw), ?_,
      (trim_padEnd hks.trimmed blank_space).symm⟩
    · rw [join_append_led h₀, led_listChunks he]
      simp
    · refine commaList_rowText he ht hc ?_
      exact trim_padStart blank_space htrim.1

end Trailing

/-! ## What follows a clause -/

/-- There are no chunks, or the first of them starts with one of the words. -/
def Leads (ends : List Text) (ks : List Text) : Prop :=
  ks = [] ∨ ∃ v ∈ ends, ∃ m c ls, ks = (m ++ c) :: ls ∧ m.lower = v.lower ∧
    atEdge c.head? = true

theorem Leads.mono {ends ends' : List Text} (h : Leads ends ks)
    (hsub : ends ⊆ ends') : Leads ends' ks := by
  rcases h with h | ⟨v, hv, h⟩
  · exact .inl h
  · exact .inr ⟨v, hsub hv, h⟩

/-- Chunks lead together if the first of them do and, where there are none,
those behind them. -/
theorem Leads.append {ends : List Text} (hks : Leads ends ks)
    (hls : Leads ends ls) : Leads ends (ks ++ ls) := by
  rcases hks with rfl | ⟨v, hv, m, c, more, rfl, hm, hc⟩
  · exact hls
  · exact .inr ⟨v, hv, m, c, more ++ ls, rfl, hm, hc⟩

theorem leads_spelling {ends : List Text} {m v : Text} (hv : v ∈ ends)
    (hm : m.lower = v.lower) (ls : List Text) : Leads ends (m :: ls) :=
  .inr ⟨v, hv, m, [], ls, by rw [List.append_nil], hm, rfl⟩

theorem leads_keyword (o : Options) {ends : List Text} {v : Text}
    (hv : v ∈ ends) (ls : List Text) : Leads ends (o.keyword v :: ls) :=
  leads_spelling hv (lower_keyword o v) ls

/-- Phrases that do not start like `by`. -/
def IsEnd (v : Text) : Prop := isPhrase v = true ∧ v.head? ≠ some 'b'

instance (v : Text) : Decidable (IsEnd v) := inferInstanceAs (Decidable (_ ∧ _))

/-- The phrase of a clause may end another: it does not start like `by`. -/
theorem isEnd_phrase (clause : Clause) : IsEnd clause.phrase := by
  cases clause <;> decide

/-- Chunks that start with an end may follow a piece. -/
theorem Leads.sequel {ends : List Text} (he : ∀ v ∈ ends, IsEnd v)
    (h : Leads ends ks) : Sequel (led ks) := by
  rcases h with rfl | ⟨v, hv, m, c, ls, rfl, hm, -⟩
  · exact sequel_nil
  · obtain ⟨hw, hb⟩ := he v hv
    obtain ⟨d, m, rfl⟩ := List.exists_cons_of_ne_nil (spelling_ne_nil hw hm)
    refine .inr ⟨d :: (m ++ c ++ led ls), by simp, ?_⟩
    rintro e ⟨⟩
    rw [lower_of_isPhrase hw] at hm
    rw [← hm] at hb
    simpa [Text.lower] using hb

theorem atEdge_append_led {c : Text} (hc : atEdge c.head? = true)
    (ls : List Text) : atEdge (c ++ led ls).head? = true := by
  cases c with
  | nil => cases ls <;> rfl
  | cons d c => exact hc

/-- A clear text runs up to the chunks that follow. -/
theorem upTo_led {ends : List Text} (he : ∀ v ∈ ends, IsEnd v)
    (hx : ∀ v ∈ ends, Clear v x)
    (hd : depth x = 0) (hks : Neat ks) (h : Leads ends ks) :
    ∃ r y, Gap r ∧ x ++ led ks = x ++ r ++ y ∧ UpTo ends (x ++ r) y ∧
      y.trim = join [' '] ks := by
  have hseq := h.sequel he
  rcases h with rfl | ⟨v, hv, m, c, ls, rfl, hm, hc⟩
  · refine ⟨[], [], .inl rfl, by simp, ⟨fun v hv => ?_, .inl rfl⟩, rfl⟩
    rw [List.append_nil]
    exact (hx v hv).absentIn [] sequel_nil
  · refine ⟨[' '], m ++ (c ++ led ls), .inr rfl, by simp,
      ⟨fun u hu => ?_, .inr ⟨v, hv, m, c ++ led ls, rfl, ?_⟩⟩, ?_⟩
    · refine AbsentIn.append ?_ hd (absentIn_space (he u hu).1 _)
      simpa using (hx u hu).absentIn _ hseq
    · refine ⟨hm, by simp [hd, depthStep], ?_, atEdge_append_led hc ls⟩
      rw [List.getLast?_concat]
      rfl
    · rw [← List.append_assoc, ← join_cons_led]
      exact trim_of_trimmed hks.trimmed

/-- The only edges inside a phrase are spaces. -/
theorem eq_space_of_mem_spelling {m : Text} {d : Char} (hw : isPhrase w = true)
    (hm : m.lower = w.lower) (hd : d ∈ m) (he : isEdge d = true) : d = ' ' := by
  have hd' : d.toLower ∈ w := by
    rw [← lower_of_isPhrase hw, ← hm]
    exact List.mem_map_of_mem hd
  rcases mem_of_isPhrase hw _ hd' with h | h
  · rw [← isEdge_toLower, isEdge_of_isLower h] at he
    cases he
  · exact (toLower_eq_iff rfl).1 h

/-- If one of two phrases goes on where an edge follows the other, it starts
with the other one and a space. -/
theorem prefix_of_spelling {v m z : Text} (hw : isPhrase w = true)
    (hv : isPhrase v = true) (hm : m.lower = v.lower)
    (hn : Text.lower (m ++ z) = w.lower) (hz : atEdge z.head? = true) :
    v ++ [' '] <+: w ++ [' '] := by
  rw [lower_of_isPhrase hw] at hn
  rw [lower_of_isPhrase hv] at hm
  rw [← hn, ← hm]
  cases z with
  | nil => exact ⟨[], by simp⟩
  | cons d z =>
    have hd : d = ' ' := by
      refine eq_space_of_mem_spelling hw (m := m ++ d :: z) ?_ (by simp) hz
      rw [hn, lower_of_isPhrase hw]
    subst hd
    exact ⟨Text.lower z ++ [' '], by simp [Text.lower]⟩

/-- A text that starts with a keyword does not start with another one. -/
theorem stripWord?_of_ne {v m c : Text} (hw : isPhrase w = true)
    (hv : isPhrase v = true) (hm : m.lower = v.lower)
    (hc : atEdge c.head? = true) (h₁ : ¬ (w ++ [' ']) <+: v ++ [' '])
    (h₂ : ¬ (v ++ [' ']) <+: w ++ [' ']) : stripWord? w (m ++ c) = none := by
  rw [stripWord?_eq_none_iff]
  intro n e hne hs
  rcases List.append_eq_append_iff.1 hne with ⟨z, rfl, rfl⟩ | ⟨z, rfl, rfl⟩
  · refine h₂ (prefix_of_spelling hw hv hm hs.spelled ?_)
    cases z with
    | nil => rfl
    | cons d z => exact hc
  · refine h₁ (prefix_of_spelling hv hw hs.spelled hm ?_)
    cases z with
    | nil => rfl
    | cons d z => exact hs.right

/-- Chunks that start with one of several keywords do not start with another
one. -/
theorem Leads.stripWord? {ends : List Text} (he : ∀ v ∈ ends, IsEnd v)
    (hw : isPhrase w = true) (hne : ∀ v ∈ ends, ¬ (w ++ [' ']) <+: v ++ [' '] ∧
    ¬ (v ++ [' ']) <+: w ++ [' ']) (h : Leads ends ks) :
    SqlRiver.stripWord? w (join [' '] ks) = none := by
  rcases h with rfl | ⟨v, hv, m, c, ls, rfl, hm, hc⟩
  · obtain ⟨d, w, rfl⟩ := List.exists_cons_of_ne_nil (ne_nil_of_isPhrase hw)
    rfl
  · rw [join_cons_led, List.append_assoc]
    exact stripWord?_of_ne hw (he v hv).1 hm (atEdge_append_led hc ls)
      (hne v hv).1 (hne v hv).2

/-! ## Clauses behind the joins -/

theorem isEnd_of_mem_phrases {ends : List Clause} :
    ∀ v ∈ ends.map Clause.phrase, IsEnd v := by
  intro v hv
  obtain ⟨clause, -, rfl⟩ := List.mem_map.1 hv
  exact isEnd_phrase clause

/-- The body of a clause runs up to the chunks that follow. -/
theorem bodyOf?_line {clause : Clause} {ends : List Clause} {m b : Text}
    (hm : m.lower = clause.phrase.lower) (hb : b.Trimmed)
    (hclear : ∀ v ∈ ends.map Clause.phrase, Clear v b) (hd : depth b = 0)
    (hks : Neat ks) (h : Leads (ends.map Clause.phrase) ks) :
    ∃ body, bodyOf? clause ends (m ++ ' ' :: (b ++ led ks)) =
      some (body, join [' '] ks) ∧ body.trim = b := by
  have hspace : ∀ v ∈ ends.map Clause.phrase, Clear v (' ' :: b) := fun v hv =>
    (hclear v hv).space (isEnd_of_mem_phrases v hv).1
  obtain ⟨r, y, hr, e, hu, hy⟩ :=
    upTo_led isEnd_of_mem_phrases hspace (by simp [hd, depthStep]) hks h
  refine ⟨' ' :: b ++ r,
    bodyOf?_eq_some_iff.2 ⟨m, y, ?_, ⟨hm, rfl, rfl, rfl⟩, hu, hy.symm⟩, ?_⟩
  · rw [← e]
    rfl
  · exact trim_pad blank_space hb hr.blank

/-- Conditions that are read back, when the clauses in `ends` may follow. -/
structure CleanConditions (ends : List Clause) (conds : List Condition) :
    Prop where
  joined : ∀ c ∈ conds, c.combinator = .and
  tidy : ∀ c ∈ conds, Tidy c.predicate
  absent : ∀ c ∈ conds, ∀ e ∈ ends, Absent e.phrase c.predicate
  divided : Divided (conds.map Condition.predicate)

/-- Entries of a list that are read back, when the clauses in `ends` may
follow. -/
structure CleanList (ends : List Clause) (entries : List Text) : Prop where
  tidy : ∀ e ∈ entries, Tidy e
  noComma : ∀ e ∈ entries, NoTop isComma e
  absent : ∀ e ∈ entries, ∀ c ∈ ends, Absent c.phrase e

/-- The conditions on the line are the keyword and the predicates with `and`
between them. -/
theorem led_conditionChunks {conds : List Condition} (h₀ : conds ≠ [])
    (h : ∀ c ∈ conds, c.combinator = .and) :
    led (conditionChunks o word conds) = ' ' ::
      (o.keyword word ++ ' ' :: andText o (conds.map Condition.predicate)) := by
  obtain ⟨c, more, rfl⟩ := List.exists_cons_of_ne_nil h₀
  have hmore :
      led (more.flatMap fun c => [o.keyword c.combinator.word, c.predicate]) =
      (more.map Condition.predicate).flatMap
      (' ' :: (o.keyword "and".toList ++ [' ']) ++ ·) := by
    rw [led, List.flatMap_assoc, List.flatMap_map]
    refine List.flatMap_congr fun d hd => ?_
    rw [h d (List.mem_cons_of_mem _ hd)]
    simp [Combinator.word]
  rw [conditionChunks, led_cons, led_cons, hmore, List.map_cons, andText,
    Text.join_cons]

theorem balanced_and (o : Options) :
    isBalanced (' ' :: (o.keyword "and".toList ++ [' '])) = true := by
  refine isBalanced_of_forall fun c hc => ?_
  rcases List.mem_cons.1 hc with rfl | hc
  · rfl
  · rcases List.mem_append.1 hc with hc | hc
    · exact depthStep_keyword o (by decide) c hc
    · obtain rfl := List.mem_singleton.1 hc
      rfl

theorem not_prefix_and (clause : Clause) :
    ¬ ("and".toList ++ [' ']) <+: clause.phrase ++ [' '] := by
  cases clause <;> decide

section Middle

variable (hks : Neat ks)
include hks

/-- Conditions are read back from the body of their clause. -/
theorem conditions_line {clause : Clause} {ends : List Clause}
    {conds : List Condition} (h₀ : conds ≠ [])
    (h : CleanConditions ends conds) (hl : Leads (ends.map Clause.phrase) ks) :
    ∃ body, bodyOf? clause ends
      (join [' '] (conditionChunks o clause.phrase conds ++ ks)) =
      some (body, join [' '] ks) ∧ conditions clause body = .ok conds := by
  have hps : conds.map Condition.predicate ≠ [] := mt List.map_eq_nil_iff.1 h₀
  have htidy : ∀ p ∈ conds.map Condition.predicate, Tidy p :=
    List.forall_mem_map.2 h.tidy
  have hclear : ∀ v ∈ ends.map Clause.phrase,
      Clear v (andText o (conds.map Condition.predicate)) := by
    intro v hv
    obtain ⟨e, he, rfl⟩ := List.mem_map.1 hv
    exact clear_andText (isPhrase_phrase e) (not_prefix_and e) (fun p hp =>
      (htidy p hp).top) (List.forall_mem_map.2 fun c hc => h.absent c hc e he)
  have htrim : (andText o (conds.map Condition.predicate)).Trimmed :=
    (trimmed_tidy _ hps htidy).1
  have hd : depth (andText o (conds.map Condition.predicate)) = 0 :=
    depth_of_isBalanced (balanced_tidy (balanced_and o) htidy)
  obtain ⟨body, hb, ht⟩ :=
    bodyOf?_line (lower_keyword o clause.phrase) htrim hclear hd hks hl
  refine ⟨body, ?_, ?_⟩
  · rw [join_append_of_led (led_conditionChunks h₀ h.joined), ← hb,
      List.append_assoc, List.cons_append]
  · rw [conditions_andText hps htidy h.divided ht, List.map_map,
      Except.ok.injEq]
    refine (List.map_congr_left fun c hc => ?_).trans (List.map_id conds)
    obtain ⟨combinator, predicate⟩ := c
    obtain rfl : combinator = .and := h.joined _ hc
    rfl

/-- The conditions of `where` are read back. -/
theorem readFilter_line {conds : List Condition}
    (h : CleanConditions [.groupBy, .having, .orderBy, .limit] conds)
    (hl : Leads ([.groupBy, .having] |>.map Clause.phrase) ks) :
    readFilter
        (join [' '] (conditionChunks o Clause.filter.phrase conds ++ ks)) =
      .ok (conds, join [' '] ks) := by
  rw [readFilter_eq_ok_iff]
  by_cases h₀ : conds = []
  · subst h₀
    refine .inl ⟨?_, rfl, rfl⟩
    rw [bodyOf?_eq_none_iff]
    exact hl.stripWord? isEnd_of_mem_phrases (isPhrase_phrase _) (by decide)
  · obtain ⟨body, hb, hc⟩ := conditions_line hks h₀ h (hl.mono (by simp))
    exact .inr ⟨body, hb, hc⟩

/-- The `group by` list is read back. -/
theorem readGroupBy_line {entries : List Text}
    (h : CleanList [.having, .orderBy, .limit] entries)
    (hl : Leads ([.having] |>.map Clause.phrase) ks) :
    readGroupBy (join [' '] (listChunks o "group".toList entries ++ ks)) =
      .ok (entries, join [' '] ks) := by
  rw [readGroupBy_eq_ok_iff]
  by_cases h₀ : entries = []
  · subst h₀
    refine .inl ⟨?_, rfl, rfl⟩
    rw [bodyOf?_eq_none_iff]
    exact hl.stripWord? isEnd_of_mem_phrases (isPhrase_phrase _) (by decide)
  · have htrim : (rowText entries).Trimmed := (trimmed_tidy _ h₀ h.tidy).1
    have hclear : ∀ v ∈ [Clause.having, .orderBy, .limit].map Clause.phrase,
        Clear v (rowText entries) := by
      intro v hv
      obtain ⟨c, hc, rfl⟩ := List.mem_map.1 hv
      exact clear_list (isPhrase_phrase c) (fun e he => (h.tidy e he).top)
        fun e he => h.absent e he c hc
    have hd : depth (rowText entries) = 0 :=
      depth_of_isBalanced (balanced_tidy rfl h.tidy)
    obtain ⟨body, hb, ht⟩ := bodyOf?_line
      (lower_groupBy (o := o)) htrim hclear hd hks (hl.mono (by simp))
    refine .inr ⟨body, ?_, commaList_rowText h₀ h.tidy h.noComma ht⟩
    rw [join_append_of_led (led_listChunks h₀), ← hb, List.append_assoc,
      List.cons_append]

end Middle

/-- The conditions of `having` are read back. -/
theorem readHaving_line {conds : List Condition} {grouped : Bool}
    (h : CleanConditions [.orderBy, .limit] conds)
    (hg : conds ≠ [] → grouped = true) :
    readHaving grouped (join [' ']
      (conditionChunks o Clause.having.phrase conds)) = .ok (conds, []) := by
  rw [readHaving_eq_ok_iff]
  by_cases h₀ : conds = []
  · subst h₀
    refine .inl ⟨?_, rfl, rfl⟩
    rw [bodyOf?_eq_none_iff]
    rfl
  · obtain ⟨body, hb, hc⟩ := conditions_line neat_nil h₀ h (.inl rfl)
    rw [List.append_nil] at hb
    exact .inr ⟨body, hb, hg h₀, hc⟩

end SqlRiver
