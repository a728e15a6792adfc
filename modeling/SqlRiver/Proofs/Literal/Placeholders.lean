import Mathlib.Logic.Relation
import SqlRiver.Proofs.Literal.Preserved

/-!
# Placeholders stand apart

The tag of a text comes from a search that has no limit of its own: as long as a
candidate occurs in the text, it is given one more mark. Such a candidate is not
longer than the text, so every search ends, and this one ends with the fewest
marks whose tag does not occur.

All placeholders of a text start with its tag, so none of them occurs in the
text. They differ in the index, and the closing shows where the index ends:
where one index starts another one, as 1 starts 10, an underscore follows the
first and a digit the second.

Main definitions and statements:

* `LiteralTable.AddsMark`: a step of the search for a tag.
* `LiteralTable.wellFounded_addsMark`, `LiteralTable.reaches_iff`: no search
  goes on forever, and the candidates of the search for a tag.
* `LiteralTable.FindsTag`: what the search for a tag comes to.
* `LiteralTable.placeholder_isPrefix_iff`: no placeholder starts another one.
* `LiteralTable.FreshWords`: words that can stand for parts of a text.
* `LiteralTable.placeholders_fresh`: the tag of a text is the first unused one,
  and its placeholders are fresh words.
-/

namespace SqlRiver.LiteralTable

variable {table : LiteralTable} {t w v : Text}

/-! ## The search for a tag -/

/-- A step of the search for a tag: a candidate that occurs in the text is given
one more mark. -/
inductive AddsMark (t : Text) : Text → Text → Prop where
  | mark {candidate : Text} (occurs : Text.occursIn candidate t = true) :
    AddsMark t candidate ('x' :: candidate)

/-- A step adds a mark to a candidate that occurs in the text. -/
theorem addsMark_iff : AddsMark t w v ↔ w <:+: t ∧ v = 'x' :: w := by
  constructor
  · rintro ⟨occurs⟩
    exact ⟨Text.occursIn_iff.1 occurs, rfl⟩
  · rintro ⟨occurs, rfl⟩
    exact .mark (Text.occursIn_iff.2 occurs)

/-- A tag that occurs in the text is followed by the tag with one more mark. -/
theorem addsMark_tagOf {marks : Nat} :
    AddsMark t (tagOf marks) v ↔ tagOf marks <:+: t ∧ v = tagOf (marks + 1) :=
  addsMark_iff

/-- A step lengthens a candidate that is not longer than the text, so no search
goes on forever. -/
theorem wellFounded_addsMark (t : Text) : WellFounded (flip (AddsMark t)) := by
  refine Subrelation.wf
    (fun {v w} hstep => ?_) (measure fun w : Text => t.length + 1 - w.length).wf
  obtain ⟨occurs, rfl⟩ := addsMark_iff.1 hstep
  have hlen := occurs.length_le
  show t.length + 1 - (w.length + 1) < t.length + 1 - w.length
  omega

/-- The candidates of the search are tags, and a tag is one of them if all tags
with fewer marks occur in the text. -/
theorem reaches_iff : Relation.ReflTransGen (AddsMark t) (tagOf 0) w ↔
    ∃ marks, w = tagOf marks ∧ ∀ fewer < marks, tagOf fewer <:+: t := by
  constructor
  · intro hreach
    induction hreach with
    | refl =>
      exact ⟨0, rfl, fun fewer hlt => absurd hlt (Nat.not_lt_zero fewer)⟩
    | tail _ hstep ih =>
      obtain ⟨marks, rfl, hfewer⟩ := ih
      obtain ⟨occurs, rfl⟩ := addsMark_tagOf.1 hstep
      refine ⟨marks + 1, rfl, fun fewer hlt => ?_⟩
      rcases Nat.lt_succ_iff_lt_or_eq.1 hlt with hlt | rfl
      · exact hfewer fewer hlt
      · exact occurs
  · rintro ⟨marks, rfl, hfewer⟩
    induction marks with
    | zero => exact .refl
    | succ marks ih =>
      have hreach := ih fun fewer hlt => hfewer fewer (Nat.lt_succ_of_lt hlt)
      exact hreach.tail
        (addsMark_tagOf.2 ⟨hfewer marks (Nat.lt_succ_self marks), rfl⟩)

/-- The search that starts with the first text comes to an end with the second
one, behind which there is no step. -/
def SearchEnds (t start last : Text) : Prop :=
  Relation.ReflTransGen (AddsMark t) start last ∧ ∀ next, ¬ AddsMark t last next

/-- The search comes to an end at the tag of the text, and nowhere else. -/
theorem searchEnds_iff :
    SearchEnds t (tagOf 0) w ↔ w = tagOf (unusedMarks t) := by
  constructor
  · rintro ⟨hreach, hend⟩
    obtain ⟨marks, rfl, hfewer⟩ := reaches_iff.1 hreach
    have hunused : ¬ tagOf marks <:+: t :=
      fun occurs => hend _ (addsMark_tagOf.2 ⟨occurs, rfl⟩)
    have hleast : IsLeast {marks | ¬ tagOf marks <:+: t} marks :=
      ⟨hunused, fun fewer hfree => not_lt.1 fun hlt => hfree (hfewer fewer hlt)⟩
    rw [hleast.unique (isLeast_unusedMarks t)]
  · rintro rfl
    refine ⟨reaches_iff.2 ⟨_, rfl, fun _ => infix_of_lt_unusedMarks⟩,
      fun next hstep => ?_⟩
    exact not_infix_unusedMarks t (addsMark_tagOf.1 hstep).1

/-- What the search for the tag of a text comes to. -/
structure FindsTag (t : Text) (marks : Nat) : Prop where
  /-- No search goes on forever, whatever it starts with. -/
  ends : WellFounded (flip (AddsMark t))
  /-- The search that starts without marks ends with this number of them, and
  with no other. -/
  result : ∀ w, SearchEnds t "__sqlfmt_lit_".toList w ↔
    w = List.replicate marks 'x' ++ "__sqlfmt_lit_".toList
  /-- The tag does not occur in the text. -/
  unused : ¬ tagOf marks <:+: t
  /-- Every tag with fewer marks occurs in it. -/
  least : ∀ fewer < marks, tagOf fewer <:+: t

/-- The search ends for every text, at the least number of marks whose tag is
not used. -/
theorem findsTag (t : Text) : FindsTag t (unusedMarks t) where
  ends := wellFounded_addsMark t
  result _ := searchEnds_iff
  unused := not_infix_unusedMarks t
  least _ := infix_of_lt_unusedMarks

/-! ## Placeholders -/

theorem takeWhile_ofNat (index : Nat) (rest : Text) :
    (Text.ofNat index ++ '_' :: rest).takeWhile Char.isDigit =
      Text.ofNat index := by
  rw [List.takeWhile_append_of_pos fun _ => isDigit_of_mem_ofNat]
  simp

/-- A placeholder starts no other one: behind its index stands an underscore,
not one more digit. -/
theorem placeholder_isPrefix_iff {i j : Nat} :
    table.placeholder i <+: table.placeholder j ↔ i = j := by
  constructor
  · rintro ⟨rest, hrest⟩
    have hindex :
        Text.ofNat i ++ '_' :: '_' :: rest = Text.ofNat j ++ ['_', '_'] := by
      simpa [placeholder, closing] using hrest
    have hdigits := congrArg (List.takeWhile Char.isDigit) hindex
    rw [takeWhile_ofNat, takeWhile_ofNat] at hdigits
    calc
      i = Text.decimalValue (Text.ofNat i) := (decimalValue_ofNat i).symm
      _ = Text.decimalValue (Text.ofNat j) := by rw [hdigits]
      _ = j := decimalValue_ofNat j
  · rintro rfl
    exact List.prefix_refl _

/-- A placeholder does not occur in a text in which its tag does not occur. -/
theorem placeholder_not_infix (h : ¬ table.tag <:+: t) (index : Nat) :
    ¬ table.placeholder index <:+: t := by
  intro occurs
  have htag : table.tag <+: table.placeholder index := by
    rw [placeholder, List.append_assoc]
    exact List.prefix_append _ _
  exact h (htag.isInfix.trans occurs)

/-- The entries of a table are under its placeholders, in order. -/
theorem map_fst_entriesFrom (table : LiteralTable) :
    ∀ (index : Nat) (literals : List Text),
      (table.entriesFrom index literals).map Prod.fst =
      (List.range' index literals.length).map table.placeholder
  | _, [] => rfl
  | index, _ :: literals => by
    rw [entriesFrom, List.map_cons,
      map_fst_entriesFrom table (index + 1) literals]
    rfl

/-- The placeholders of a table are those of the indices of its spans. -/
theorem map_fst_entries (table : LiteralTable) :
    table.entries.map Prod.fst =
      (List.range table.literals.length).map table.placeholder := by
  rw [entries, map_fst_entriesFrom, List.range_eq_range']

/-- Words that can stand for parts of a text. -/
structure FreshWords (t : Text) (ws : List Text) : Prop where
  /-- They differ from each other. -/
  nodup : ws.Nodup
  /-- None of them starts another one. -/
  prefixFree : ws.Pairwise fun w v => ¬ w <+: v ∧ ¬ v <+: w
  /-- None of them occurs in the text. -/
  unused : ∀ w ∈ ws, ¬ w <:+: t
  /-- They hold letters and digits of ASCII and underscores only. -/
  word : ∀ w ∈ ws, ∀ c ∈ w, c.isAlpha = true ∨ c.isDigit = true ∨ c = '_'

/-- The placeholders of a table are fresh words for every text in which its tag
does not occur. -/
theorem freshWords_entries (h : ¬ table.tag <:+: t) :
    FreshWords t (table.entries.map Prod.fst) := by
  have hfree : (table.entries.map Prod.fst).Pairwise fun w v => ¬ w <+: v ∧
      ¬ v <+: w := by
    rw [map_fst_entries, List.pairwise_map]
    refine List.pairwise_lt_range.imp fun {i j} hlt => ?_
    rw [placeholder_isPrefix_iff, placeholder_isPrefix_iff]
    omega
  have hmem : ∀ w ∈ table.entries.map Prod.fst, ∃ index,
      w = table.placeholder index := by
    intro w hw
    rw [map_fst_entries] at hw
    obtain ⟨index, -, rfl⟩ := List.mem_map.1 hw
    exact ⟨index, rfl⟩
  refine ⟨hfree.imp ?_, hfree, fun w hw => ?_, fun w hw c hc => ?_⟩
  · rintro w _ ⟨hne, -⟩ rfl
    exact hne (List.prefix_refl w)
  · obtain ⟨index, rfl⟩ := hmem w hw
    exact placeholder_not_infix h index
  · obtain ⟨index, rfl⟩ := hmem w hw
    have hc' := isWordChar_of_mem_placeholder table index c hc
    simpa [isWordChar, Char.isAlphanum, or_assoc] using hc'

/-- The search for the tag of a text ends, with the fewest marks that make a tag
that is not in the text. The placeholders that start with this tag differ from
each other, none starts another one, and none is in the text. -/
theorem placeholders_fresh (t : Text) :
    FindsTag t (unusedMarks t) ∧
    ∀ masked table, protect t = .ok (masked, table) →
      table.tag = tagOf (unusedMarks t) ∧
      FreshWords t (table.entries.map Prod.fst) := by
  refine ⟨findsTag t, fun masked table h => ?_⟩
  obtain ⟨segs, -, rfl, -⟩ := protect_eq_ok_iff.1 h
  exact ⟨rfl, freshWords_entries (not_infix_unusedMarks t)⟩

/-- Two tags are taken, and of eleven indices one starts another one. -/
theorem placeholders_fresh_taken :
    let t := "x__sqlfmt_lit_1__ ".toList ++ List.replicate 22 '\x27'
    let table : LiteralTable := ⟨2, List.replicate 11 "''".toList⟩
    protect t = .ok ("x__sqlfmt_lit_1__ ".toList ++
        (List.range 11).flatMap table.placeholder, table) ∧
        FindsTag t 2 ∧ table.tag = "xx__sqlfmt_lit_".toList ∧
        FreshWords t (table.entries.map Prod.fst) := by
  intro t table
  have h : protect t = .ok ("x__sqlfmt_lit_1__ ".toList ++
      (List.range 11).flatMap table.placeholder, table) := by
    decide +kernel
  have hmarks : unusedMarks t = 2 := by decide +kernel
  obtain ⟨hfinds, hfresh⟩ := placeholders_fresh t
  obtain ⟨htag, hwords⟩ := hfresh _ _ h
  rw [hmarks] at hfinds htag
  exact ⟨h, hfinds, htag, hwords⟩

end SqlRiver.LiteralTable
