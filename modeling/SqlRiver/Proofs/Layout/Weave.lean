import SqlRiver.Layout.Clauses
import SqlRiver.Proofs.Text.Blank

/-!
# Texts woven of chunks

A layout chooses the white space between the parts of a query and nothing else.
`Woven ks t` says that the text `t` is made of the chunks `ks` in this order,
with white space before each of them and none behind the last. Between two
chunks there is some.

Main definitions and statements:

* `weave`, `Gaps`, `Woven`: chunks with gaps before them.
* `Woven.append`, `Woven.pad`, `Woven.wrapped`: texts one behind the other, and
  in brackets.
* `commaChunks`, `woven_rowLines`: the chunks of a list, however it is divided
  into rows.
* `flatten_wrap`: wrapping keeps the entries.
-/

namespace SqlRiver

open Text

/-! ## Chunks with gaps -/

/-- Each chunk with its gap before it. -/
def weave : List Text → List Text → Text
  | g :: gs, k :: ks => g ++ k ++ weave gs ks
  | _, _ => []

/-- All gaps are blank, and all but the first one are not empty. -/
structure Gaps (gs : List Text) : Prop where
  blank : ∀ g ∈ gs, Blank g
  apart : ∀ g ∈ gs.tail, g ≠ []

theorem Gaps.tail {g : Text} {gs : List Text} (h : Gaps (g :: gs)) : Gaps gs :=
  ⟨fun x hx => h.blank x (by simp [hx]),
    fun x hx => h.apart x (List.mem_of_mem_tail hx)⟩

/-- The text is made of the chunks, with gaps before them. -/
def Woven (ks : List Text) (t : Text) : Prop :=
  ∃ gs : List Text, gs.length = ks.length ∧ Gaps gs ∧ t = weave gs ks

/-- Chunks with gaps behind chunks with gaps. -/
theorem weave_append : ∀ {gs gs' ks ks' : List Text}, gs.length = ks.length →
    weave (gs ++ gs') (ks ++ ks') = weave gs ks ++ weave gs' ks'
  | [], _, [], _, _ => rfl
  | [], _, _ :: _, _, h => by cases h
  | _ :: _, _, [], _, h => by cases h
  | g :: gs, gs', k :: ks, ks', h => by
    have hl : gs.length = ks.length := by simpa using h
    simp [weave, weave_append hl]

/-- A gap ends the words of the chunk before it. -/
theorem words_weave : ∀ {gs ks : List Text}, Gaps gs → gs.length = ks.length →
    words (weave gs ks) = ks.flatMap words
  | [], [], _, _ => rfl
  | [], _ :: _, _, h => by cases h
  | _ :: _, [], _, h => by cases h
  | g :: gs, k :: ks, hg, h => by
    have ih : words (weave gs ks) = ks.flatMap words :=
      words_weave hg.tail (by simpa using h)
    rw [weave, List.append_assoc, words_blank_append (hg.blank g (by simp)),
      List.flatMap_cons, ← ih]
    cases gs with
    | nil => cases ks <;> simp [weave]
    | cons g' gs =>
      cases ks with
      | nil => simp [weave]
      | cons k' ks =>
        have hg' := hg.blank g' (by simp)
        rw [weave, List.append_assoc, ← List.append_assoc, words_append_blank
          hg' (hg.apart g' (by simp)), words_blank_append hg']

/-- The words of a woven text, with single spaces between them. -/
theorem collapse_woven {ks : List Text} {t : Text} (h : Woven ks t) :
    collapse t = collapse (join [' '] ks) := by
  obtain ⟨gs, hl, hg, rfl⟩ := h
  rw [collapse, collapse, words_weave hg hl, words_join_space]

section Woven

variable {ks ls : List Text} {t u g k : Text}

theorem woven_single (k : Text) : Woven [k] k :=
  ⟨[[]], rfl, ⟨by simp [Blank], by simp⟩, by simp [weave]⟩

/-- White space before a woven text. -/
theorem Woven.pad (h : Woven ks t) (h₀ : ks ≠ []) (hg : Blank g) :
    Woven ks (g ++ t) := by
  obtain ⟨gs, hlen, hgs, rfl⟩ := h
  obtain ⟨k, ks, rfl⟩ := List.exists_cons_of_ne_nil h₀
  cases gs with
  | nil => cases hlen
  | cons g₀ gs =>
    refine ⟨(g ++ g₀) :: gs, hlen, ⟨?_, hgs.apart⟩, by simp [weave]⟩
    intro x hx
    rcases List.mem_cons.1 hx with rfl | hx
    · exact blank_append.2 ⟨hg, hgs.blank _ (by simp)⟩
    · exact hgs.blank x (by simp [hx])

/-- Two woven texts with white space between them. -/
theorem Woven.append (h : Woven ks t) (h' : Woven ls u) (h₀ : ls ≠ [])
    (hg : Blank g) (hg₀ : g ≠ []) : Woven (ks ++ ls) (t ++ g ++ u) := by
  obtain ⟨gs, hlen, hgs, rfl⟩ := h
  obtain ⟨gs', hlen', hgs', rfl⟩ := h'
  obtain ⟨l, ls, rfl⟩ := List.exists_cons_of_ne_nil h₀
  cases gs' with
  | nil => cases hlen'
  | cons g₀ gs' =>
    refine ⟨gs ++ (g ++ g₀) :: gs', by simp_all, ⟨?_, ?_⟩, ?_⟩
    · intro x hx
      rcases List.mem_append.1 hx with hx | hx
      · exact hgs.blank x hx
      · rcases List.mem_cons.1 hx with rfl | hx
        · exact blank_append.2 ⟨hg, hgs'.blank _ (by simp)⟩
        · exact hgs'.blank x (by simp [hx])
    · intro x hx
      have hx' : x ∈ gs.tail ∨ x = g ++ g₀ ∨ x ∈ gs' := by
        cases gs with
        | nil => exact .inr (.inr hx)
        | cons y gs => simpa using hx
      rcases hx' with hx | rfl | hx
      · exact hgs.apart x hx
      · simp [hg₀]
      · exact hgs'.apart x hx
    · rw [weave_append hlen]
      simp [weave]

/-- A text right before the first chunk. -/
theorem Woven.prepend (h : Woven (k :: ks) t)
    (hk : ∀ c ∈ k.head?, isBlank c = false) (hk₀ : k ≠ []) (x : Text) :
    Woven ((x ++ k) :: ks) (x ++ trimStart t) := by
  obtain ⟨gs, hlen, hgs, rfl⟩ := h
  cases gs with
  | nil => cases hlen
  | cons g gs =>
    refine ⟨[] :: gs, hlen, ⟨?_, hgs.apart⟩, ?_⟩
    · intro y hy
      rcases List.mem_cons.1 hy with rfl | hy
      · exact blank_nil
      · exact hgs.blank y (by simp [hy])
    · rw [weave, List.append_assoc, trimStart_pad (hgs.blank g (by simp))]
      · simp [weave]
      · rw [List.head?_append_of_ne_nil _ hk₀]
        exact hk

theorem appendLast_concat (x : Text) (ks : List Text) (k : Text) :
    appendLast x (ks ++ [k]) = ks ++ [k ++ x] := by
  induction ks with
  | nil => rfl
  | cons l ks ih =>
    obtain ⟨y, ys, hy⟩ := List.exists_cons_of_ne_nil (l := ks ++ [k]) (by simp)
    rw [List.cons_append, hy, appendLast, ← hy, ih, List.cons_append]
    simp

/-- A text right behind the last chunk. -/
theorem Woven.suffix (h : Woven ks t) (h₀ : ks ≠ []) (x : Text) :
    Woven (appendLast x ks) (t ++ x) := by
  obtain ⟨gs, hlen, hgs, rfl⟩ := h
  obtain ⟨ks, k, rfl⟩ := (List.eq_nil_or_concat' ks).resolve_left h₀
  obtain ⟨gs, g, rfl⟩ := (List.eq_nil_or_concat' gs).resolve_left <| by
    rintro rfl
    simp at hlen
  have hlen' : gs.length = ks.length := by simpa using hlen
  refine ⟨gs ++ [g], by simp [appendLast_concat, hlen'], hgs, ?_⟩
  rw [appendLast_concat, weave_append hlen', weave_append hlen']
  simp [weave]

end Woven

/-! ## Lists -/

/-- The chunks of a list, given those of its entries: a comma follows each entry
but the last. -/
def commaChunks : List (List Text) → List Text
  | [] => []
  | [ks] => ks
  | ks :: kss => appendLast [','] ks ++ commaChunks kss

theorem appendLast_append (x : Text) (ks : List Text) {ls : List Text}
    (h : ls ≠ []) : appendLast x (ks ++ ls) = ks ++ appendLast x ls := by
  obtain ⟨ls, l, rfl⟩ := (List.eq_nil_or_concat' ls).resolve_left h
  rw [← List.append_assoc, appendLast_concat, appendLast_concat,
    List.append_assoc]

theorem appendLast_ne_nil (x : Text) {ks : List Text} (h : ks ≠ []) :
    appendLast x ks ≠ [] := by
  obtain ⟨ks, k, rfl⟩ := (List.eq_nil_or_concat' ks).resolve_left h
  simp [appendLast_concat]

theorem commaChunks_cons (ks : List Text) {kss : List (List Text)}
    (h : kss ≠ []) :
    commaChunks (ks :: kss) = appendLast [','] ks ++ commaChunks kss := by
  obtain ⟨ls, kss, rfl⟩ := List.exists_cons_of_ne_nil h
  rfl

theorem commaChunks_ne_nil {kss : List (List Text)} (h₀ : kss ≠ [])
    (h : ∀ ks ∈ kss, ks ≠ []) : commaChunks kss ≠ [] := by
  obtain ⟨ks, kss, rfl⟩ := List.exists_cons_of_ne_nil h₀
  by_cases hr : kss = []
  · subst hr
    exact h ks (by simp)
  · rw [commaChunks_cons ks hr]
    simp [appendLast_ne_nil _ (h ks (by simp))]

/-- Between two lists in one stands a comma. -/
theorem commaChunks_append {kss lss : List (List Text)}
    (h : ∀ ks ∈ kss, ks ≠ []) (hk : kss ≠ []) (hl : lss ≠ []) :
    commaChunks (kss ++ lss) =
      appendLast [','] (commaChunks kss) ++ commaChunks lss := by
  induction kss with
  | nil => exact absurd rfl hk
  | cons ks kss ih =>
    rw [List.cons_append, commaChunks_cons ks (by simp [hl])]
    by_cases hr : kss = []
    · subst hr
      rfl
    · rw [ih (fun x hx => h x (by simp [hx])) hr, commaChunks_cons ks hr,
        appendLast_append _ _ (commaChunks_ne_nil hr fun x hx =>
        h x (by simp [hx])), List.append_assoc]

theorem rowLines_ne_nil (lead indent : Text) {rows : List (List Text)}
    (h : rows ≠ []) : rowLines lead indent rows ≠ [] := by
  obtain ⟨row, rows, rfl⟩ := List.exists_cons_of_ne_nil h
  cases rows <;> simp [rowLines]

section Rows

variable {α : Type} {text : α → Text} {group : α → List Text}

/-- One row of a list, given that each entry is woven of its chunks. -/
theorem woven_rowText (h : ∀ a, Woven (group a) (text a))
    (h₀ : ∀ a, group a ≠ []) :
    ∀ {row : List α}, row ≠ [] →
      Woven (commaChunks (row.map group)) (rowText (row.map text))
  | [], hr => absurd rfl hr
  | [a], _ => h a
  | a :: b :: row, _ => by
    have ih : Woven (commaChunks ((b :: row).map group))
        (rowText ((b :: row).map text)) :=
      woven_rowText h h₀ (by simp)
    have hne : commaChunks ((b :: row).map group) ≠ [] :=
      commaChunks_ne_nil (by simp) fun ks hks => by
        obtain ⟨c, -, rfl⟩ := List.mem_map.1 hks
        exact h₀ c
    have := ((h a).suffix (h₀ a) [',']).append ih hne (g :=
      [' ']) (blank_cons.2 ⟨rfl, blank_nil⟩) (by simp)
    rw [List.map_cons, commaChunks_cons _ (by simp)]
    simpa [rowText, join] using this

/-- The rows of a list are woven of the chunks of all its entries. -/
theorem woven_rowLines (h : ∀ a, Woven (group a) (text a))
    (h₀ : ∀ a, group a ≠ []) {indent : Text} (hi : Blank indent) :
    ∀ {rows : List (List α)} {lead : Text}, rows ≠ [] →
      (∀ row ∈ rows, row ≠ []) →
      ∃ t, join ['\n'] (rowLines lead indent (rows.map (List.map text))) =
      lead ++ t ∧ Woven (commaChunks (rows.flatten.map group)) t
  | [], _, hr, _ => absurd rfl hr
  | [row], lead, _, hrow => by
    refine ⟨rowText (row.map text), by simp [rowLines, join], ?_⟩
    simpa using woven_rowText h h₀ (hrow row (by simp))
  | row :: row' :: rows, lead, _, hrow => by
    obtain ⟨t, ht, hw⟩ : ∃ t,
        join ['\n'] (rowLines indent indent
          ((row' :: rows).map (List.map text))) = indent ++ t ∧
        Woven (commaChunks ((row' :: rows).flatten.map group)) t :=
      woven_rowLines h h₀ hi (by simp) fun r hr => hrow r (by simp [hr])
    have hmap : ∀ {r : List α}, ∀ ks ∈ r.map group, ks ≠ [] := by
      intro r ks hks
      obtain ⟨c, -, rfl⟩ := List.mem_map.1 hks
      exact h₀ c
    have hne : (row' :: rows).flatten.map group ≠ [] := by
      simp [hrow row' (by simp)]
    have hfirst := (woven_rowText h h₀ (hrow row (by simp))).suffix
      (commaChunks_ne_nil (by simp [hrow row (by simp)]) hmap) [',']
    have hgap : Blank (['\n'] ++ indent) :=
      blank_append.2 ⟨blank_cons.2 ⟨rfl, blank_nil⟩, hi⟩
    refine ⟨rowText (row.map text) ++ [','] ++ (['\n'] ++ indent) ++ t, ?_, ?_⟩
    · have hlines :
          rowLines lead indent ((row :: row' :: rows).map (List.map text)) =
          [lead ++ rowText (row.map text) ++ [',']] ++
          rowLines indent indent ((row' :: rows).map (List.map text)) := rfl
      rw [hlines, join_append _ (by simp) (rowLines_ne_nil _ _ (by simp)), ht]
      simp [join]
    · rw [List.flatten_cons, List.map_append,
        commaChunks_append hmap (by simp [hrow row (by simp)]) hne]
      exact hfirst.append hw (commaChunks_ne_nil hne hmap) hgap (by simp)

end Rows

/-! ## Wrapping -/

theorem consFirst_cons (e : Text) (row : List Text) (rows : List (List Text)) :
    consFirst e (row :: rows) = (e :: row) :: rows := rfl

/-- Wrapping keeps every entry in its order, and no row behind the first is
empty. -/
theorem wrapFrom_spec (indent width : Nat) (measure : Text → Nat) :
    ∀ (used : Nat) (es : List Text),
      ∃ row rows, wrapFrom indent width measure used es = row :: rows ∧
      row ++ rows.flatten = es ∧ ∀ r ∈ rows, r ≠ []
  | _, [] => ⟨[], [], rfl, rfl, by simp⟩
  | used, e :: es => by
    rw [wrapFrom]
    split
    · obtain ⟨row, rows, hw, hf, hne⟩ :=
        wrapFrom_spec indent width measure (indent + measure e) es
      refine ⟨[], (e :: row) :: rows, by rw [hw, consFirst_cons], by simp [hf],
        ?_⟩
      intro r hr
      rcases List.mem_cons.1 hr with rfl | hr
      · simp
      · exact hne r hr
    · obtain ⟨row, rows, hw, hf, hne⟩ :=
        wrapFrom_spec indent width measure (used + 2 + measure e) es
      exact ⟨e :: row, rows, by rw [hw, consFirst_cons], by simp [hf], hne⟩

/-- Wrapping keeps the entries of a list and makes no empty row. -/
theorem wrap_spec (indent width : Nat) (measure : Text → Nat) {es : List Text}
    (h : es ≠ []) :
    (wrap indent width measure es).flatten = es ∧
    wrap indent width measure es ≠ [] ∧
    ∀ row ∈ wrap indent width measure es, row ≠ [] := by
  obtain ⟨e, es, rfl⟩ := List.exists_cons_of_ne_nil h
  obtain ⟨row, rows, hw, hf, hne⟩ :=
    wrapFrom_spec indent width measure (indent + measure e) es
  rw [wrap, hw, consFirst_cons]
  refine ⟨by simp [hf], by simp, fun r hr => ?_⟩
  rcases List.mem_cons.1 hr with rfl | hr
  · simp
  · exact hne r hr

end SqlRiver
