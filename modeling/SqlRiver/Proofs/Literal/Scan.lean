import Mathlib.Data.List.Basic
import Mathlib.Data.List.TakeWhile
import SqlRiver.Literal.Table
import SqlRiver.Proofs.Text.Boundary

/-!
# Texts with placeholders

A text with placeholders is read from left to right as a sequence of segments:
each placeholder is the quoted span it stands for, and every other character is
itself. Restoring a text writes the sources of these segments. A scan never
looks across the end of a word, so the segments of a text are those of its
parts.

Main definitions and statements:

* `LiteralTable.scan`: the segments of a text with placeholders.
* `LiteralTable.scan_cons`, `scan_tag`, `scan_entry`, `scan_induction`: what a
  scan does.
* `LiteralTable.restore_plain`, `restore_tag`, `restore_entry`: what restoring
  does.
* `LiteralTable.source_scan`: restoring writes the sources of the segments.
* `LiteralTable.scan_append`: the segments of two texts one behind the other.
-/

namespace SqlRiver.LiteralTable

variable {table : LiteralTable}

/-! ## The scan -/

/-- The segments of a text whose first `inside` characters have been dealt
with. -/
def scanFrom (table : LiteralTable) : Nat → Text → List Segment
  | _, [] => []
  | inside + 1, _ :: rest => scanFrom table inside rest
  | 0, c :: rest =>
    if table.tag.isPrefixOf (c :: rest) then
      match table.entryAfterTag? ((c :: rest).drop table.tag.length) with
      | some (literal, behind) =>
        .quoted literal :: scanFrom table (table.tag.length + behind - 1) rest
      | none =>
        table.tag.map .plain ++ scanFrom table (table.tag.length - 1) rest
    else .plain c :: scanFrom table 0 rest

/-- The segments of a text with placeholders. -/
def scan (table : LiteralTable) (t : Text) : List Segment := scanFrom table 0 t

/-- Restoring writes the sources of the segments. -/
theorem source_scanFrom (table : LiteralTable) :
    ∀ (inside : Nat) (t : Text), (table.scanFrom inside t).flatMap
      Segment.source = table.restoreFrom inside t
  | _, [] => by simp [scanFrom, restoreFrom]
  | inside + 1, c :: rest => by
    rw [scanFrom, restoreFrom, source_scanFrom table inside rest]
  | 0, c :: rest => by
    rw [scanFrom, restoreFrom]
    split
    · cases table.entryAfterTag? ((c :: rest).drop table.tag.length) with
      | some found =>
        simp only
        rw [List.flatMap_cons, source_scanFrom table _ rest]
        rfl
      | none =>
        simp only
        rw [List.flatMap_append, source_scanFrom table _ rest, List.flatMap_map]
        simp [Segment.source]
    · rw [List.flatMap_cons, source_scanFrom table 0 rest]
      rfl

/-- The scan of a text spells the restored text. -/
theorem source_scan (table : LiteralTable) (t : Text) :
    (table.scan t).flatMap Segment.source = table.restore t :=
  source_scanFrom table 0 t

/-! ## Tags and indices -/

theorem isWordChar_of_mem_tag (table : LiteralTable) :
    ∀ c ∈ table.tag, isWordChar c = true := by
  have hstem : ∀ c ∈ "__sqlfmt_lit_".toList, isWordChar c = true := by decide
  intro c hc
  rcases List.mem_append.1 hc with hc | hc
  · rw [List.eq_of_mem_replicate hc]
    rfl
  · exact hstem c hc

theorem tag_ne_nil (table : LiteralTable) : table.tag ≠ [] := by
  simp [tag, tagOf]

theorem getLast?_tag (table : LiteralTable) :
    table.tag.getLast? = some '_' := by
  rw [tag, tagOf, List.getLast?_append_of_ne_nil _ (by simp)]
  rfl

/-- The digits are the index of a span of the table. -/
structure Indexes (table : LiteralTable) (digits literal : Text) : Prop where
  ne_nil : digits ≠ []
  digit : ∀ c ∈ digits, c.isDigit = true
  entry : table.literals[Text.decimalValue digits]? = some literal

theorem isWordChar_of_isDigit {c : Char} (h : c.isDigit = true) :
    isWordChar c = true := by
  simp [isWordChar, Char.isAlphanum, h]

theorem isDigit_of_mem_ofNat {index : Nat} {c : Char}
    (h : c ∈ Text.ofNat index) : c.isDigit = true :=
  Nat.isDigit_of_mem_toDigits (by decide) (by decide) h

/-- The digits of an index have it as their value. -/
theorem decimalValue_ofNat (index : Nat) :
    Text.decimalValue (Text.ofNat index) = index :=
  Nat.ofDigitChars_ten_toDigits

/-- Behind a tag stands an entry if digits of an index and the closing mark
do. -/
theorem entryAfterTag?_eq_some_iff {behind literal : Text} {n : Nat} :
    table.entryAfterTag? behind = some (literal, n) ↔
    ∃ digits rest, behind = digits ++ closing ++ rest ∧
      table.Indexes digits literal ∧ n = digits.length + closing.length := by
  unfold entryAfterTag?
  constructor
  · intro h
    simp only at h
    split at h
    · cases h
    · next hd =>
      obtain ⟨l, hl, h⟩ := Option.map_eq_some_iff.1 h
      cases h
      obtain ⟨hne, hc⟩ : behind.takeWhile Char.isDigit ≠ [] ∧ closing.isPrefixOf
          (behind.drop (behind.takeWhile Char.isDigit).length) = true := by
        simpa using hd
      obtain ⟨rest, hr⟩ := List.isPrefixOf_iff_prefix.1 hc
      refine ⟨behind.takeWhile Char.isDigit, rest, ?_, ⟨hne, ?_, hl⟩, rfl⟩
      · have e : behind.takeWhile Char.isDigit ++
            behind.dropWhile Char.isDigit = behind :=
          List.takeWhile_append_dropWhile
        rw [List.append_assoc, hr]
        conv => lhs; rw [← e]
        congr 1
        conv => rhs; arg 2; rw [← e]
        rw [List.drop_left]
      · exact fun c hc => List.mem_takeWhile_imp hc
  · rintro ⟨digits, rest, rfl, hi, rfl⟩
    have htake :
        (digits ++ closing ++ rest).takeWhile Char.isDigit = digits := by
      rw [List.append_assoc, List.takeWhile_append_of_pos hi.digit]
      simp [closing]
    have hdrop :
        (digits ++ closing ++ rest).drop digits.length = closing ++ rest := by
      rw [List.append_assoc, List.drop_left]
    simp only [htake, hdrop, hi.entry]
    rw [if_neg (by simp [hi.ne_nil, closing])]
    rfl

/-! ## What a scan does -/

theorem scanFrom_inside (x t : Text) :
    table.scanFrom x.length (x ++ t) = table.scan t := by
  induction x with
  | nil => rfl
  | cons c x ih => exact ih

@[simp] theorem scan_nil : table.scan [] = [] := rfl

theorem scan_cons {c : Char} {rest : Text} (h : ¬ table.tag <+: c :: rest) :
    table.scan (c :: rest) = .plain c :: table.scan rest := by
  rw [scan, scanFrom, if_neg (by rwa [List.isPrefixOf_iff_prefix])]
  rfl

/-- A tag without an entry behind it is plain. -/
theorem scan_tag {rest : Text} (h : table.entryAfterTag? rest = none) :
    table.scan (table.tag ++ rest) =
      table.tag.map .plain ++ table.scan rest := by
  obtain ⟨c, u, hu⟩ := List.exists_cons_of_ne_nil (tag_ne_nil table)
  have hp : table.tag.isPrefixOf (c :: (u ++ rest)) = true := by
    rw [List.isPrefixOf_iff_prefix, hu]
    exact ⟨rest, rfl⟩
  have hd : (c :: (u ++ rest)).drop table.tag.length = rest := by
    rw [← List.cons_append, ← hu, List.drop_left]
  conv => lhs; rw [hu, List.cons_append, scan, scanFrom, if_pos hp, hd, h]
  simp only [hu, List.length_cons, Nat.add_sub_cancel, scanFrom_inside]

/-- A placeholder is scanned to its quoted span. -/
theorem scan_entry {digits literal : Text} (h : table.Indexes digits literal)
    (rest : Text) :
    table.scan (table.tag ++ digits ++ closing ++ rest) =
      .quoted literal :: table.scan rest := by
  obtain ⟨c, u, hu⟩ := List.exists_cons_of_ne_nil (tag_ne_nil table)
  have e : table.tag ++ digits ++ closing ++ rest =
      c :: (u ++ digits ++ closing ++ rest) := by
    rw [hu]
    simp
  have hp :
      table.tag.isPrefixOf (c :: (u ++ digits ++ closing ++ rest)) = true := by
    rw [List.isPrefixOf_iff_prefix, ← e]
    exact ⟨digits ++ closing ++ rest, by simp⟩
  have hd : (c :: (u ++ digits ++ closing ++ rest)).drop table.tag.length
      = digits ++ closing ++ rest := by
    rw [← e, List.append_assoc, List.append_assoc, List.drop_left,
      List.append_assoc]
  have he := entryAfterTag?_eq_some_iff.2 ⟨digits, rest, rfl, h, rfl⟩
  have hlen : table.tag.length + (digits.length + closing.length) - 1
      = (u ++ digits ++ closing).length := by
    simp only [hu, List.length_cons, List.length_append]
    omega
  rw [e, scan, scanFrom, if_pos hp, hd, he]
  simp only [hlen, scanFrom_inside]

theorem restore_plain {c : Char} {rest : Text} (h : ¬ table.tag <+: c :: rest) :
    table.restore (c :: rest) = c :: table.restore rest := by
  rw [← source_scan, scan_cons h, ← source_scan]
  rfl

theorem restore_tag {rest : Text} (h : table.entryAfterTag? rest = none) :
    table.restore (table.tag ++ rest) = table.tag ++ table.restore rest := by
  rw [← source_scan, scan_tag h, List.flatMap_append, ← source_scan,
    List.flatMap_map]
  simp [Segment.source]

/-- A placeholder is restored to its quoted span. -/
theorem restore_entry {digits literal : Text} (h : table.Indexes digits literal)
    (rest : Text) :
    table.restore (table.tag ++ digits ++ closing ++ rest) =
      literal ++ table.restore rest := by
  rw [← source_scan, scan_entry h, ← source_scan]
  rfl

/-- Every text ends, or starts with a character that starts no tag, with a tag
that has no index behind it, or with a placeholder. -/
theorem scan_induction (table : LiteralTable) {P : Text → List Segment → Prop}
    (nil : P [] []) (char : ∀ c rest segs, ¬ table.tag <+: c :: rest →
    P rest segs → P (c :: rest) (.plain c :: segs))
    (tag : ∀ rest segs, table.entryAfterTag? rest = none → P rest segs →
    P (table.tag ++ rest) (table.tag.map .plain ++ segs))
    (entry : ∀ digits literal rest segs, table.Indexes digits literal →
    P rest segs →
    P (table.tag ++ digits ++ closing ++ rest) (.quoted literal :: segs))
    (t : Text) : P t (table.scan t) := by
  generalize hn : t.length = n
  induction n using Nat.strongRecOn generalizing t with
  | _ n ih =>
    have hpos := List.length_pos_iff.2 (tag_ne_nil table)
    cases t with
    | nil => exact nil
    | cons c rest =>
      by_cases hp : table.tag <+: c :: rest
      · obtain ⟨behind, e⟩ := hp
        rw [← e] at hn ⊢
        cases he : table.entryAfterTag? behind with
        | none =>
          rw [scan_tag he]
          refine tag behind _ he (ih behind.length ?_ behind rfl)
          rw [List.length_append] at hn
          omega
        | some found =>
          obtain ⟨literal, k⟩ := found
          obtain ⟨digits, behind', rfl, hi, -⟩ :=
            entryAfterTag?_eq_some_iff.1 he
          have e' : table.tag ++ (digits ++ closing ++ behind')
              = table.tag ++ digits ++ closing ++ behind' := by simp
          rw [e', scan_entry hi]
          refine entry digits literal behind' _ hi
            (ih behind'.length ?_ behind' rfl)
          simp only [List.length_append] at hn
          omega
      · rw [scan_cons hp]
        refine char c rest _ hp (ih rest.length ?_ rest rfl)
        rw [List.length_cons] at hn
        omega

/-! ## Texts one behind the other -/

/-- A word at the start of a text does not reach across a place where no word
runs on. -/
theorem prefix_of_prefix_append {w u v : Text}
    (hw : ∀ c ∈ w, isWordChar c = true) (hu : u ≠ [])
    (h : runsOn u.getLast? v.head? = false) (hp : w <+: u ++ v) : w <+: u := by
  obtain ⟨z, e⟩ := hp
  rcases List.append_eq_append_iff.1 e with ⟨y, rfl, -⟩ | ⟨y, rfl, rfl⟩
  · exact List.prefix_append w y
  · cases y with
    | nil => simp
    | cons d y =>
      obtain ⟨c, hc⟩ := Option.isSome_iff_exists.1 (List.getLast?_isSome.2 hu)
      have hcw := hw c (by simp [List.mem_of_getLast? hc])
      have hdw := hw d (by simp)
      simp [hc, runsOn, hcw, hdw] at h

theorem runsOn_getLast?_append {x u : Text} {a : Option Char}
    (h : runsOn (x ++ u).getLast? a = false) : runsOn u.getLast? a = false := by
  cases u with
  | nil => rfl
  | cons c u => rwa [List.getLast?_append_of_ne_nil _ (by simp)] at h

/-- No placeholder reaches across a place where no word runs on. -/
theorem scan_append {u v : Text} (h : runsOn u.getLast? v.head? = false) :
    table.scan (u ++ v) = table.scan u ++ table.scan v := by
  revert h
  refine scan_induction table (P :=
    fun u segs => runsOn u.getLast? v.head? = false →
    table.scan (u ++ v) = segs ++ table.scan v) ?_ ?_ ?_ ?_ u
  · intro _
    rfl
  · intro c rest segs hp ih h
    have hp' : ¬ table.tag <+: c :: (rest ++ v) := fun hp' =>
      hp (prefix_of_prefix_append (isWordChar_of_mem_tag table) (by simp) h hp')
    rw [List.cons_append, scan_cons hp',
      ih (runsOn_getLast?_append (x := [c]) h), List.cons_append]
  · intro rest segs he ih h
    have he' : table.entryAfterTag? (rest ++ v) = none := by
      cases hf : table.entryAfterTag? (rest ++ v) with
      | none => rfl
      | some found =>
        obtain ⟨literal, n⟩ := found
        obtain ⟨digits, behind, e, hi, -⟩ := entryAfterTag?_eq_some_iff.1 hf
        -- the whole placeholder would lie before the boundary
        have hword : ∀ c ∈ table.tag ++ (digits ++ closing),
            isWordChar c = true := by
          intro c hc
          rcases List.mem_append.1 hc with hc | hc
          · exact isWordChar_of_mem_tag table c hc
          · rcases List.mem_append.1 hc with hc | hc
            · exact isWordChar_of_isDigit (hi.digit c hc)
            · obtain rfl : c = '_' := by simpa [closing] using hc
              rfl
        have hp : table.tag ++ (digits ++ closing) <+: table.tag ++ rest ++ v :=
          ⟨behind, by rw [List.append_assoc table.tag rest v, e]; simp⟩
        obtain ⟨z, hz⟩ := (List.prefix_append_right_inj _).1
          (prefix_of_prefix_append hword (by simp [tag_ne_nil table]) h hp)
        have := entryAfterTag?_eq_some_iff.2 ⟨digits, z, hz.symm, hi, rfl⟩
        rw [he] at this
        cases this
    rw [List.append_assoc, scan_tag he', ih (runsOn_getLast?_append h),
      List.append_assoc]
  · intro digits literal rest segs hi ih h
    rw [List.append_assoc, scan_entry hi, ih (runsOn_getLast?_append h),
      List.cons_append]

/-- Between two texts, a character that is not part of a word stands for
itself. -/
theorem scan_append_cons {c : Char} (hc : isWordChar c = false) (u v : Text) :
    table.scan (u ++ c :: v) = table.scan u ++ .plain c :: table.scan v := by
  have hoff : offWord (some c) = true := by simp [offWord, hc]
  have hp : ¬ table.tag <+: c :: v := by
    rintro ⟨z, hz⟩
    obtain ⟨d, u, hu⟩ := List.exists_cons_of_ne_nil (tag_ne_nil table)
    have hd := isWordChar_of_mem_tag table d (by simp [hu])
    rw [hu, List.cons_append] at hz
    obtain ⟨rfl, -⟩ := List.cons.inj hz
    rw [hc] at hd
    cases hd
  rw [scan_append (runsOn_of_right hoff _), scan_cons hp]

/-- A text without an underscore has no placeholders. -/
theorem scan_of_not_mem {t : Text} (h : '_' ∉ t) :
    table.scan t = t.map .plain := by
  induction t with
  | nil => rfl
  | cons c t ih =>
    have hp : ¬ table.tag <+: c :: t := fun hp =>
      h (hp.subset (List.mem_of_getLast? (getLast?_tag table)))
    rw [scan_cons hp, ih (fun hm => h (by simp [hm])), List.map_cons]

/-! ## Tables without entries -/

/-- A table without entries restores nothing. -/
theorem restore_entryless (h : table.literals = []) (t : Text) :
    table.restore t = t := by
  refine scan_induction table (P := fun t _ => table.restore t = t) rfl ?_ ?_
    ?_ t
  · intro c rest _ hp ih
    rw [restore_plain hp, ih]
  · intro rest _ he ih
    rw [restore_tag he, ih]
  · intro digits literal rest _ hentry _
    have hsome := hentry.entry
    rw [h] at hsome
    cases hsome

theorem restore_empty (t : Text) : LiteralTable.empty.restore t = t :=
  restore_entryless rfl t

end SqlRiver.LiteralTable
