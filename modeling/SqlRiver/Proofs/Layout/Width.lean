import SqlRiver.Proofs.Layout.Shifted
import SqlRiver.Proofs.Literal.Distributed
import SqlRiver.Layout.RoundTrip

/-!
# The width of lists

The lists of `group by` and `order by` are wrapped at the width of a layout. An
entry is added to a row if the row stays within the width, and a comma follows
the row afterwards if it is not the last one. So the line of a row with several
entries is at most as wide as the layout if it is the last row of its list, and
otherwise at most one character wider, which is the comma. The width is that of
the printed line, with the quoted spans in place.

Main definitions and statements:

* `wrap_width`: the rows of several entries are within the width.
* `ListRow`: a row of a list of a query, and the line that it is written on.
* `exists_infix_of_within`: the lines of a query are lines of the queries around
  it.
* `listRow_width`: how wide the printed lines of lists are.
* `listRow_full`: a line that is wider than the layout.
-/

namespace SqlRiver

open Text

/-! ## Rows -/

/-- What entries behind the first one add to the width of a row. -/
def addedWidth (measure : Text → Nat) : List Text → Nat
  | [] => 0
  | entry :: more => 2 + measure entry + addedWidth measure more

/-- The width of a row. -/
def rowWidth (measure : Text → Nat) : List Text → Nat
  | [] => 0
  | entry :: more => measure entry + addedWidth measure more

theorem addedWidth_cons (measure : Text → Nat) (entry : Text)
    (more : List Text) :
    addedWidth measure (entry :: more) =
      2 + rowWidth measure (entry :: more) := by
  rw [addedWidth, rowWidth]
  omega

theorem addedWidth_map (measure : Text → Nat) (f : Text → Text) :
    ∀ entries : List Text, addedWidth measure (entries.map f) = addedWidth
      (fun e => measure (f e)) entries
  | [] => rfl
  | entry :: more =>
    by rw [List.map_cons, addedWidth, addedWidth, addedWidth_map measure f more]

/-- A row is as long as its width when entries are measured by their length. -/
theorem length_rowText (row : List Text) :
    (rowText row).length = rowWidth List.length row := by
  induction row with
  | nil => rfl
  | cons entry more ih =>
    cases more with
    | nil => rfl
    | cons next more =>
      have hrow : rowText (entry :: next :: more) =
          entry ++ [',', ' '] ++ rowText (next :: more) := rfl
      have hwidth : rowWidth List.length (entry :: next :: more) =
          entry.length + (2 + rowWidth List.length (next :: more)) := by
        rw [rowWidth, addedWidth_cons]
      rw [hrow, List.length_append, List.length_append, ih, hwidth]
      show entry.length + 2 + rowWidth List.length (next :: more) = _
      omega

/-- A row of several entries is within the width, if what was added to its first
entry is. -/
theorem rowWidth_le {indent width : Nat} {measure : Text → Nat} {entry : Text}
    {more : List Text}
    (h : more ≠ [] → indent + measure entry + addedWidth measure more ≤ width)
    (hlen : 2 ≤ (entry :: more).length) :
    indent + rowWidth measure (entry :: more) ≤ width := by
  have h₀ : more ≠ [] := by
    rintro rfl
    exact absurd hlen (by simp)
  rw [rowWidth, ← Nat.add_assoc]
  exact h h₀

/-- What is added to a row stays within the width, and so does each row of
several entries behind it. -/
theorem wrapFrom_width (indent width : Nat) (measure : Text → Nat)
    (entries : List Text) :
    ∀ (used : Nat) (row : List Text) (rows : List (List Text)),
      wrapFrom indent width measure used entries = row :: rows →
      (row ≠ [] → used + addedWidth measure row ≤ width) ∧
      ∀ r ∈ rows, 2 ≤ r.length → indent + rowWidth measure r ≤ width := by
  induction entries with
  | nil =>
    rintro used row rows ⟨⟩
    exact ⟨fun h => absurd rfl h, by simp⟩
  | cons entry more ih =>
    intro used row rows h
    rw [wrapFrom] at h
    by_cases hfull : width < used + 2 + measure entry
    · -- the entry starts a new row
      obtain ⟨r, rs, hr, -, -⟩ :=
        wrapFrom_spec indent width measure (indent + measure entry) more
      obtain ⟨hadded, hrows⟩ := ih _ r rs hr
      rw [if_pos hfull, hr, consFirst_cons] at h
      obtain ⟨rfl, rfl⟩ := List.cons.inj h
      exact ⟨fun h₀ => absurd rfl h₀,
        List.forall_mem_cons.2 ⟨rowWidth_le hadded, hrows⟩⟩
    · obtain ⟨r, rs, hr, -, -⟩ :=
        wrapFrom_spec indent width measure (used + 2 + measure entry) more
      obtain ⟨hadded, hrows⟩ := ih _ r rs hr
      rw [if_neg hfull, hr, consFirst_cons] at h
      obtain ⟨rfl, rfl⟩ := List.cons.inj h
      refine ⟨fun _ => ?_, hrows⟩
      rw [addedWidth_cons, rowWidth]
      by_cases h₀ : r = []
      · subst h₀
        show used + (2 + (measure entry + 0)) ≤ width
        omega
      · have := hadded h₀
        omega

/-- The rows of several entries are within the width. -/
theorem wrap_width (indent width : Nat) (measure : Text → Nat)
    (entries : List Text) :
    ∀ row ∈ wrap indent width measure entries, 2 ≤ row.length →
      indent + rowWidth measure row ≤ width := by
  cases entries with
  | nil => simp [wrap]
  | cons entry more =>
    obtain ⟨r, rs, hr, -, -⟩ :=
      wrapFrom_spec indent width measure (indent + measure entry) more
    obtain ⟨hadded, hrows⟩ := wrapFrom_width indent width measure more _ r rs hr
    rw [wrap, hr, consFirst_cons]
    exact List.forall_mem_cons.2 ⟨rowWidth_le hadded, hrows⟩

/-! ## Lines of rows -/

/-- The line of a row: the first row stands behind the head of the list, the
others below it, and a comma follows all rows but the last. -/
def rowLine (head : Text) (isFirst isLast : Bool) (row : List Text) : Text :=
  (if isFirst then head else spaces head.length) ++
    (rowText row ++ if isLast then [] else [','])

/-- A line of a list is as long as what leads it, its row, and the comma behind
every row but the last. -/
theorem length_rowLine (head : Text) (isFirst isLast : Bool) (row : List Text) :
    (rowLine head isFirst isLast row).length =
      head.length + rowWidth List.length row + if isLast then 0 else 1 := by
  have hstart :
      (if isFirst then head else spaces head.length).length = head.length := by
    cases isFirst <;> simp [length_spaces]
  rw [rowLine, List.length_append, List.length_append, hstart, length_rowText]
  cases isLast <;> rfl

/-- Where the line of a row stands among the lines of all rows. -/
theorem exists_rowLines_append (start indent : Text) (before : List (List Text))
    (row : List Text) (after : List (List Text)) :
    ∃ lines rest : List Text, (rest = [] ↔ after = []) ∧
      rowLines start indent (before ++ row :: after) =
      lines ++ ((if before.isEmpty then start else indent) ++
      (rowText row ++ if after.isEmpty then [] else [','])) :: rest := by
  induction before generalizing start with
  | nil =>
    cases after with
    | nil => exact ⟨[], [], by simp, by simp [rowLines]⟩
    | cons next after =>
      have h₀ : rowLines indent indent (next :: after) ≠ [] :=
        rowLines_ne_nil _ _ (List.cons_ne_nil _ _)
      exact ⟨[], rowLines indent indent (next :: after), by simp [h₀],
        by simp [rowLines]⟩
  | cons first before ih =>
    obtain ⟨lines, rest, hrest, h⟩ := ih indent
    have hcons : rowLines start indent (first :: before ++ row :: after) =
        (start ++ rowText first ++ [',']) ::
        rowLines indent indent (before ++ row :: after) := by
      cases before <;> rfl
    refine ⟨(start ++ rowText first ++ [',']) :: lines, rest, hrest, ?_⟩
    rw [hcons, h]
    simp

/-! ## Quoted spans -/

section Restored

variable (table : LiteralTable)

/-- Quoted spans stand in the parts of a text, if characters outside of words
stand between them. -/
theorem restore_join {sep : Text} (h₀ : sep ≠ [])
    (hsep : ∀ c ∈ sep, isWordChar c = false) (parts : List Text) :
    table.restore (join sep parts) = join sep (parts.map table.restore) :=
  (distributes_restore table).join h₀ hsep parts

theorem restore_rowText (row : List Text) :
    table.restore (rowText row) = rowText (row.map table.restore) :=
  (distributes_restore table).rowText row

/-- No quoted span stands in a text without underscores before a space. -/
theorem restore_before_space {head : Text} (h : '_' ∉ head) (t : Text) :
    table.restore (head ++ ' ' :: t) = head ++ ' ' :: table.restore t := by
  rw [LiteralTable.restore_append_cons rfl, LiteralTable.restore_of_not_mem h]

/-- A comma behind a text, if there is one, is not part of a placeholder. -/
theorem restore_append_behind {behind : Text} (h : behind = [] ∨ behind = [','])
    (t : Text) : table.restore (t ++ behind) = table.restore t ++ behind :=
  (distributes_restore table).append_of_forall
    (by rcases h with rfl | rfl <;> decide) t

end Restored

/-! ## The rows of a query -/

/-- What stands before the first row of a list. -/
def listHead (o : Options) (base word : Text) : Text :=
  lead o base word ++ [' '] ++ o.keyword "by".toList ++ [' ']

/-- The lists of a query, with the words that lead them. -/
def Query.lists (q : Query) : List (Text × List Text) :=
  [("group".toList, q.groupBy), ("order".toList, q.orderBy)]

/-- The rows of a list of a query. -/
def listRows (o : Options) (root : Nat) (q : Query) (list : Text × List Text) :
    List (List Text) :=
  wrap (listHead o (baseOf root q.depth) list.1).length o.maxWidth
    (fun entry => (q.restore entry).length) list.2

/-- A row of a list of a query, the rows behind it, and the line that the row is
written on. -/
def ListRow (o : Options) (root : Nat) (q : Query) (row : List Text)
    (more : List (List Text)) (line : Text) : Prop :=
  ∃ list ∈ q.lists, ∃ before, listRows o root q list = before ++ row :: more ∧
    line = rowLine
    (listHead o (baseOf root q.depth) list.1) before.isEmpty more.isEmpty row

section ListRow

variable {o : Options} {root : Nat} {q : Query} {row : List Text}
  {more : List (List Text)} {line : Text}

/-- The head of a list is a text of letters and spaces with a space at its
end. -/
theorem exists_listHead (o : Options) (root depth : Nat)
    {list : Text × List Text} (h : list ∈ q.lists) :
    ∃ head, Lettered head ∧
      listHead o (baseOf root depth) list.1 = head ++ [' '] := by
  have hword : ∀ list ∈ q.lists, ∀ c ∈ list.1, c.isLower = true ∨ c = ' ' :=
    List.forall_mem_cons.2 ⟨by show ∀ c ∈ "group".toList, _; decide,
      List.forall_mem_cons.2 ⟨by show ∀ c ∈ "order".toList, _; decide, by simp⟩⟩
  refine ⟨_, ?_, rfl⟩
  have hlead := lettered_lead o (lettered_spaces ((depth - root) * nestIndent))
    (hword list h)
  exact (hlead.append lettered_space).append (lettered_keyword o (by decide))

/-- The line of a row and what follows it in the list stand together in the
lines of the query. -/
theorem ListRow.exists_infix (h : ListRow o root q row more line) :
    ∃ rest : List Text, (rest = [] ↔ more = []) ∧
      line :: rest <:+: (queryLines o root q).tail := by
  obtain ⟨list, hlist, before, hrows, rfl⟩ := h
  have hlines : listLines o (baseOf root q.depth) q.literals list.1 list.2 ∈
      (clauseLines o root q).tail := by
    rcases List.mem_cons.1 hlist with rfl | hlist
    · simp [clauseLines]
    · obtain rfl := List.mem_singleton.1 hlist
      simp [clauseLines]
  obtain ⟨lines, rest, hrest, hrow⟩ :=
    exists_rowLines_append (listHead o (baseOf root q.depth) list.1)
      (spaces (listHead o (baseOf root q.depth) list.1).length) before row more
  refine ⟨rest, hrest, List.IsInfix.trans ?_ (infix_tail_queryLines hlines)⟩
  have hlist : listLines o (baseOf root q.depth) q.literals list.1 list.2 =
      rowLines (listHead o (baseOf root q.depth) list.1)
      (spaces (listHead o (baseOf root q.depth) list.1).length)
      (listRows o root q list) := rfl
  rw [hlist, hrows, hrow]
  exact (List.suffix_append _ _).isInfix

/-- What stands before a row. -/
theorem exists_rowStart (o : Options) (root depth : Nat)
    {list : Text × List Text} (h : list ∈ q.lists) (isFirst : Bool) :
    ∃ start, Lettered start ∧ start ++ [' '] = if isFirst then
      listHead o (baseOf root depth) list.1
      else spaces (listHead o (baseOf root depth) list.1).length := by
  obtain ⟨head, hl, hhead⟩ := exists_listHead o root depth h
  rw [hhead]
  cases isFirst with
  | true => exact ⟨head, hl, rfl⟩
  | false =>
    refine ⟨spaces head.length, lettered_spaces _, ?_⟩
    rw [List.length_append]
    exact (spaces_add _ 1).symm

/-- The line of a row with the quoted spans in place. -/
theorem restore_rowLine (table : LiteralTable) {list : Text × List Text}
    (h : list ∈ q.lists) (isFirst isLast : Bool) (row : List Text) :
    table.restore (rowLine (listHead o (baseOf root q.depth) list.1) isFirst
      isLast row) = rowLine (listHead o (baseOf root q.depth) list.1) isFirst
      isLast (row.map table.restore) := by
  obtain ⟨start, hl, hstart⟩ := exists_rowStart o root q.depth h isFirst
  have hend : table.restore (rowText row ++ if isLast then [] else [',']) =
      rowText (row.map table.restore) ++ if isLast then [] else [','] := by
    rw [restore_append_behind table (by cases isLast <;> simp), restore_rowText]
  rw [rowLine, rowLine, ← hstart, List.append_assoc, List.append_assoc, ← hend]
  exact restore_before_space table (hl.not_mem rfl (by decide)) _

/-- The entries of a row are entries of its list. -/
theorem ListRow.mem (h : ListRow o root q row more line) :
    ∀ e ∈ row, e ∈ q.groupBy ++ q.orderBy := by
  obtain ⟨list, hlist, before, hrows, -⟩ := h
  intro e he
  have hentry : e ∈ list.2 := by
    have h₀ : list.2 ≠ [] := by
      intro h₀
      rw [listRows, h₀] at hrows
      simp [wrap] at hrows
    have hflat := (wrap_spec (listHead o (baseOf root q.depth) list.1).length
      o.maxWidth (fun entry => (q.restore entry).length) h₀).1
    rw [← hflat]
    refine List.mem_flatten.2 ⟨row, ?_, he⟩
    show row ∈ listRows o root q list
    rw [hrows]
    simp
  rcases List.mem_cons.1 hlist with rfl | hlist
  · exact List.mem_append_left _ hentry
  · obtain rfl := List.mem_singleton.1 hlist
    exact List.mem_append_right _ hentry

/-- How wide the line of a row of several entries is: its comma is not counted
by the wrapping. -/
theorem ListRow.width (h : ListRow o root q row more line)
    (hlen : 2 ≤ row.length) :
    (q.restore line).length ≤ o.maxWidth + if more.isEmpty then 0 else 1 := by
  obtain ⟨list, hlist, before, hrows, rfl⟩ := h
  have hrow : row ∈ listRows o root q list := by
    rw [hrows]
    simp
  have hwidth := wrap_width _ _ _ _ row hrow hlen
  have hmeasure : rowWidth List.length (row.map q.restore) = rowWidth
      (fun e => (q.restore e).length) row := by
    cases row with
    | nil => rfl
    | cons e row => rw [List.map_cons, rowWidth, rowWidth, addedWidth_map]
  rw [Query.restore, restore_rowLine _ hlist, length_rowLine]
  show _ + rowWidth List.length (row.map q.restore) + _ ≤ _
  rw [hmeasure]
  omega

/-- The line of a row whose entries have no line breaks has none. -/
theorem ListRow.newline_not_mem (h : ListRow o root q row more line)
    (hrow : ∀ e ∈ row, '\n' ∉ q.restore e) : '\n' ∉ q.restore line := by
  obtain ⟨list, hlist, before, -, rfl⟩ := h
  obtain ⟨start, hl, hstart⟩ :=
    exists_rowStart o root q.depth hlist before.isEmpty
  have hhead : '\n' ∉ start ++ [' '] :=
    (hl.append lettered_space).not_mem rfl (by decide)
  have hrow : '\n' ∉ rowText (row.map q.restore) := fun hm => by
    rcases mem_of_mem_join hm with hm | ⟨t, ht, hm⟩
    · exact absurd hm (by decide)
    · obtain ⟨e, he, rfl⟩ := List.mem_map.1 ht
      exact hrow e he hm
  have hcomma : '\n' ∉ if more.isEmpty then [] else [','] := by
    split <;> decide
  rw [Query.restore, restore_rowLine _ hlist, rowLine, ← hstart]
  exact List.not_mem_append hhead (List.not_mem_append hrow hcomma)

end ListRow

/-! ## Queries inside queries -/

theorem appendLast_nil (lines : List Text) : appendLast [] lines = lines := by
  rcases List.eq_nil_or_concat' lines with rfl | ⟨ls, l, rfl⟩
  · rfl
  · rw [appendLast_concat, List.append_nil]

theorem appendLast_appendLast (x y : Text) (lines : List Text) :
    appendLast y (appendLast x lines) = appendLast (x ++ y) lines := by
  rcases List.eq_nil_or_concat' lines with rfl | ⟨ls, l, rfl⟩
  · rfl
  · rw [appendLast_concat, appendLast_concat, appendLast_concat,
      List.append_assoc]

/-- What is put behind the last line follows lines among them, or does not.
Nothing else about them changes. -/
theorem exists_appendLast_middle (x : Text) (before : List Text)
    {ls : List Text} (h : ls ≠ []) (after : List Text) :
    ∃ (y : Text) (after' : List Text), (y = [] ∨ y = x) ∧
      appendLast x (before ++ (ls ++ after)) =
      before ++ (appendLast y ls ++ after') := by
  by_cases hafter : after = []
  · refine ⟨x, [], .inr rfl, ?_⟩
    rw [hafter, List.append_nil, List.append_nil, appendLast_append x before h]
  · refine ⟨[], appendLast x after, .inl rfl, ?_⟩
    rw [← List.append_assoc, appendLast_append x _ hafter, appendLast_nil,
      List.append_assoc]

/-- Lines that stand together still do when a text is put behind the last line,
which may be theirs. -/
theorem exists_infix_appendLast (x : Text) {ls lines : List Text} (h₀ : ls ≠ [])
    (h : ls <:+: lines) :
    ∃ y, (y = [] ∨ y = x) ∧ appendLast y ls <:+: appendLast x lines := by
  obtain ⟨before, after, rfl⟩ := h
  obtain ⟨y, after', hy, e⟩ := exists_appendLast_middle x before h₀ after
  refine ⟨y, hy, ?_⟩
  rw [List.append_assoc, e, ← List.append_assoc]
  exact List.infix_append _ _ _

/-- What an outer query puts behind the last line of a query in brackets. -/
def IsClosing (t : Text) : Prop := t = [] ∨ t.head? = some ')'

theorem IsClosing.append {t u : Text} (ht : IsClosing t) (hu : IsClosing u) :
    IsClosing (t ++ u) := by
  cases t with
  | nil => exact hu
  | cons c t => exact .inr (ht.resolve_left (List.cons_ne_nil _ _))

theorem tail_queryLines_ne_nil (o : Options) (root : Nat) (q : Query) :
    (queryLines o root q).tail ≠ [] := by
  intro h₀
  have h := infix_sourceLines o root (rfl : q.source = q.source)
  rw [h₀] at h
  exact sourceLines_ne_nil o root _ _ (List.infix_nil.1 h)

/-- The lines of a query inside another one, the first one excepted, are lines
of that query. Only the last one may be followed by closing brackets and
aliases. -/
theorem exists_infix_of_within {n : Nat} {q inner : Query} (o : Options)
    (root : Nat) (h : Within n q inner) :
    ∃ closing, IsClosing closing ∧
      appendLast closing (queryLines o root inner).tail <:+:
      (queryLines o root q).tail := by
  induction h with
  | self q =>
    refine ⟨[], .inl rfl, ?_⟩
    simpa only [appendLast_nil] using List.infix_refl (queryLines o root q).tail
  | @source n q inner query aliasName hs _ ih =>
    obtain ⟨closing, hclosing, hinner⟩ := ih
    -- the lines of the source are those of the query in it, behind a bracket
    obtain ⟨start, hsource⟩ : ∃ start, sourceLines o root start
        (.subquery query aliasName) <:+: (queryLines o root q).tail := by
      rcases List.mem_cons.1 hs with hs | hs
      · exact ⟨_, infix_sourceLines o root hs.symm⟩
      · obtain ⟨j, hj, hs⟩ := List.mem_map.1 hs
        exact ⟨_, infix_joinQuery o root hj hs⟩
    obtain ⟨first, more, hq, -⟩ := exists_cons_queryLines o root query
    rw [hq, List.tail_cons] at hinner
    have h₀ : appendLast closing (queryLines o root inner).tail ≠ [] :=
      appendLast_ne_nil _ (tail_queryLines_ne_nil o root inner)
    obtain ⟨x, hx, hmore⟩ :=
      exists_infix_appendLast (')' :: aliasText aliasName) h₀ (hinner.trans
        (List.suffix_cons (start ++ ['('] ++ trimStart first) more).isInfix)
    have hxc : IsClosing x := by
      rcases hx with rfl | rfl
      · exact .inl rfl
      · exact .inr rfl
    refine ⟨closing ++ x, hclosing.append hxc, ?_⟩
    rw [← appendLast_appendLast]
    rw [sourceLines, hq] at hsource
    exact hmore.trans hsource

/-- The line of a row is a line of every query around the one that the row
belongs to. Brackets and aliases of those queries follow it only if it is the
last row of its list. -/
theorem ListRow.exists_mem {o : Options} {root n : Nat} {q inner : Query}
    {row : List Text} {more : List (List Text)} {line : Text}
    (h : ListRow o root inner row more line) (hw : Within n q inner) :
    ∃ closing, IsClosing closing ∧ (more ≠ [] → closing = []) ∧
      line ++ closing ∈ queryLines o root q := by
  obtain ⟨rest, hrest, hlines⟩ := h.exists_infix
  obtain ⟨closing, hclosing, hinner⟩ := exists_infix_of_within o root hw
  obtain ⟨x, hx, hrow⟩ :=
    exists_infix_appendLast closing (List.cons_ne_nil line rest) hlines
  have hxc : IsClosing x := by
    rcases hx with rfl | rfl
    · exact .inl rfl
    · exact hclosing
  have hsub : ∀ l ∈ appendLast x (line :: rest), l ∈ queryLines o root q :=
    fun l hl =>
    List.mem_of_mem_tail ((hrow.trans hinner).subset hl)
  by_cases hmore : more = []
  · rw [hrest.2 hmore] at hsub
    exact ⟨x, hxc, fun h₀ => absurd hmore h₀, hsub _ List.mem_cons_self⟩
  · refine ⟨[], .inl rfl, fun _ => rfl, ?_⟩
    obtain ⟨next, rest, rfl⟩ := List.exists_cons_of_ne_nil (mt hrest.1 hmore)
    rw [List.append_nil]
    exact hsub _ List.mem_cons_self

/-- How wide the printed lines of lists are, at every level of a query whose
levels share one table of quoted spans and whose lists have no line breaks. The
line of a row with several entries is within the width, unless its entries fill
the width and another row follows: then the comma behind it is one character too
many. -/
theorem listRow_width (o : Options) (q : Query)
    (hshare : ∀ n inner, Within n q inner → inner.literals = q.literals)
    (hflat : ∀ n inner, Within n q inner →
    ∀ e ∈ inner.groupBy ++ inner.orderBy, '\n' ∉ q.restore e) :
    render o q = join ['\n'] ((queryLines o q.depth q).map q.restore) ∧
    ∀ n inner row more line, Within n q inner →
      ListRow o q.depth inner row more line → 2 ≤ row.length →
      '\n' ∉ q.restore line ∧
      (∃ closing, IsClosing closing ∧ (more ≠ [] → closing = []) ∧
      q.restore line ++ q.restore closing ∈
      (queryLines o q.depth q).map q.restore) ∧
      ((q.restore line).length ≤ o.maxWidth ∨
      more ≠ [] ∧ (q.restore line).length = o.maxWidth + 1) := by
  refine ⟨restore_join q.literals (by simp) (by decide) _,
    fun n inner row more line hw h hlen => ?_⟩
  have hrestore : inner.restore = q.restore := by
    funext t
    rw [Query.restore, Query.restore, hshare n inner hw]
  have hwidth := h.width hlen
  have hline :=
    h.newline_not_mem fun e he => hrestore ▸ hflat n inner hw e (h.mem e he)
  rw [hrestore] at hwidth hline
  obtain ⟨closing, hclosing, hmore, hmem⟩ := h.exists_mem hw
  refine ⟨hline, ⟨closing, hclosing, hmore, ?_⟩, ?_⟩
  · have happend :
        q.restore line ++ q.restore closing = q.restore (line ++ closing) := by
      rcases hclosing with rfl | hc
      · rw [List.append_nil]
        exact List.append_nil _
      · obtain ⟨closing, rfl⟩ := List.head?_eq_some_iff.1 hc
        rw [Query.restore, Query.restore, Query.restore,
          LiteralTable.restore_append_cons rfl, LiteralTable.restore_cons rfl]
    rw [happend]
    exact List.mem_map_of_mem hmem
  · by_cases hlast : more = []
    · rw [hlast] at hwidth
      exact .inl hwidth
    · rw [if_neg (by simpa using hlast)] at hwidth
      rcases Nat.lt_or_ge o.maxWidth (q.restore line).length with hgt | hle
      · exact .inr ⟨hlast, by omega⟩
      · exact .inl hle

/-- The query in brackets of `stackedQuery` fills a layout of 29 characters, and
no comma follows. -/
theorem listRow_width_stacked :
    (stackedQuery.restore "         order by alpha, beta".toList).length ≤
      29 := by
  have hw : ∀ n inner, Within n stackedQuery inner →
      inner.literals = stackedQuery.literals ∧
      ∀ e ∈ inner.groupBy ++ inner.orderBy, '\n' ∉ stackedQuery.restore e := by
    refine forall_within_iff.2 ⟨⟨rfl, by decide⟩, ?_⟩
    rintro s hs query aliasName rfl
    obtain ⟨⟩ := List.mem_singleton.1 hs
    refine forall_within_iff.2 ⟨⟨rfl, by decide⟩, ?_⟩
    rintro s hs query aliasName rfl
    cases List.mem_singleton.1 hs
  obtain ⟨-, hlines⟩ := listRow_width ⟨.lower, 29⟩ stackedQuery
    (fun n inner h => (hw n inner h).1) fun n inner h => (hw n inner h).2
  have hrow : ListRow ⟨.lower, 29⟩ 1
      { columns := [⟨['a'], none⟩], source := .table ['t'] none,
        orderBy := ["alpha".toList, "beta".toList], depth := 2 }
      ["alpha".toList, "beta".toList] []
      "         order by alpha, beta".toList :=
    ⟨_, List.mem_cons_of_mem _ List.mem_cons_self, [], by decide, by decide⟩
  have hwithin : Within 1 stackedQuery
      { columns := [⟨['a'], none⟩], source := .table ['t'] none,
        orderBy := ["alpha".toList, "beta".toList], depth := 2 } :=
    .source List.mem_cons_self (.self _)
  exact ((hlines 1 _ _ _ _ hwithin hrow (by decide)).2.2).resolve_right fun h =>
    h.1 rfl

/-- A query whose entries fill a row of 21 characters. -/
def fullQuery : Query where
  columns := [⟨['*'], none⟩]
  source := .table ['t'] none
  orderBy := ["alpha".toList, "beta".toList, "gamma desc".toList]

/-- The comma behind a row that is full does not fit. -/
theorem listRow_full :
    parse "select * from t order by alpha, beta, gamma desc".toList =
      .ok fullQuery ∧ (∀ n inner, Within n fullQuery inner →
      inner.literals = fullQuery.literals) ∧
    (∀ n inner, Within n fullQuery inner →
      ∀ e ∈ inner.groupBy ++ inner.orderBy, '\n' ∉ fullQuery.restore e) ∧
    ListRow ⟨.lower, 21⟩ fullQuery.depth fullQuery ["alpha".toList,
      "beta".toList] [["gamma desc".toList]] " order by alpha, beta,".toList ∧
    render ⟨.lower, 21⟩ fullQuery =
      "select *\n  from t\n order by alpha, beta,\n          gamma desc".toList ∧
    ¬ (fullQuery.restore " order by alpha, beta,".toList).length ≤ 21 := by
  have hw : ∀ n inner, Within n fullQuery inner → inner = fullQuery := by
    refine forall_within_iff.2 ⟨rfl, ?_⟩
    rintro s hs query aliasName rfl
    cases List.mem_singleton.1 hs
  refine ⟨?_, fun n inner h => by rw [hw n inner h], fun n inner h => ?_, ?_,
    ?_, ?_⟩
  · decide +kernel
  · rw [hw n inner h]
    decide
  · exact ⟨_, List.mem_cons_of_mem _ List.mem_cons_self, [], by decide,
      by decide⟩
  · decide +kernel
  · decide

end SqlRiver
