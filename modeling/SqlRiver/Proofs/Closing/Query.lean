import SqlRiver.Proofs.Closing.Joins

/-!
# Spaces behind closing brackets

A closing bracket ends a word for the search for keywords, as a space does. It
does not for the searches that look for spaces only: a keyword that touches a
bracket goes into the name of a table, or is taken for the end of an
expression. So a text gives the same query, but for blanks, with a space
between each bracket that closes its top level and a keyword behind it, as
long as no bracket holds the keyword.

Main definitions and statements:

* `part`: a text with a space between closing brackets and keywords.
* `Respaced.alike_readClauses`: reading the clauses of a text and of the
  parted text.
* `parse_part`: a text gives the query that the parted text gives, but for
  blanks.
* `parse_part_held`: a bracket that holds a `where`.
-/

namespace SqlRiver

open Text

variable {t u : Text} {nested : Nested} {literals : LiteralTable} {level : Nat}

/-! ## Clauses -/

/-- The clauses of a text and of the parted text give the same query, but for
blanks, if no bracket holds a keyword. -/
theorem Respaced.alike_readClauses (h : Respaced t u) (hh : isHeld t = false) :
    Alike (fun q q' => q'.squeezed = q.squeezed)
      (readClauses nested literals level t)
      (readClauses nested literals level u) := by
  refine (h.alike_readTrailing .limit).bind_of_eq ?_
  rintro ⟨limit, t₁⟩ ⟨limit', u⟩ hl - ⟨hlimit, h⟩
  refine (h.alike_readTrailing .offset).bind_of_eq ?_
  rintro ⟨offset, t₂⟩ ⟨offset', u⟩ ho - ⟨hoffset, h⟩
  refine h.alike_readOrderBy.bind_of_eq ?_
  rintro ⟨orderBy, t₃⟩ ⟨orderBy', u⟩ hb - ⟨horder, h⟩
  have hh : headHeld t₃ = false := by
    rw [rest_of_readOrderBy hb, rest_of_readTrailing ho,
      rest_of_readTrailing hl]
    exact hh
  refine (h.alike_readSelect fun list rest hs =>
    (forall_of_headHeld hh hs).1).bind_of_eq ?_
  rintro ⟨⟨distinct, columns⟩, t₄⟩
    ⟨⟨distinct', columns'⟩, u⟩ hs - ⟨⟨hdistinct, hcolumns⟩, h⟩
  obtain ⟨list, hs⟩ := selected?_of_readSelect hs
  obtain ⟨-, hnames, hpieces⟩ := forall_of_headHeld hh hs
  refine (h.alike_readSources hnames).bind_of_eq ?_
  rintro ⟨⟨source, listed⟩, t₅⟩ ⟨_, u⟩ hr - ⟨rfl, h⟩
  rw [← rest_of_readSources hr] at hpieces
  refine (h.alike_readJoins hpieces).bind ?_
  rintro ⟨joined, t⟩ ⟨joined', u⟩ ⟨hjoined, h⟩
  refine h.alike_readFilter.bind ?_
  rintro ⟨filter, t⟩ ⟨filter', u⟩ ⟨hfilter, h⟩
  refine h.alike_readGroupBy.bind ?_
  rintro ⟨groupBy, t⟩ ⟨groupBy', u⟩ ⟨hgroup, h⟩
  simp only at hlimit hoffset horder hdistinct hcolumns hjoined hfilter hgroup
  have hgrouped : groupBy'.isEmpty = groupBy.isEmpty := by
    simpa only [List.isEmpty_map] using congrArg List.isEmpty hgroup
  simp only [hgrouped]
  refine h.alike_readHaving.bind ?_
  rintro ⟨having, t⟩ ⟨having', u⟩ ⟨hhaving, h⟩
  refine h.parted.alike_finish.bind ?_
  rintro _ _ -
  have hjoins := map_squeezed_of_squeezedOn hjoined
  simp only at hhaving
  simp only [Alike, Query.squeezed, allSqueezed_eq_map, List.map_append, hjoins,
    hlimit, hoffset, horder, hdistinct, hcolumns, hfilter, hgroup, hhaving]

/-! ## Parted texts -/

/-- A text that starts at a given depth, with a space between each bracket that
closes down to depth zero and a keyword that it touches. -/
def partFrom : Int → Text → Text
  | _, [] => []
  | d, c :: t =>
    if d == 1 && c == ')' && leadsKeyword t then ')' :: ' ' :: partFrom 0 t
    else c :: partFrom (d + depthStep c) t

/-- A text with a space between each bracket that closes its top level and a
keyword that it touches. -/
def part (t : Text) : Text := partFrom 0 t

/-- A space is put only between a bracket and a keyword. -/
theorem spread_partFrom : ∀ (d : Int) (t : Text),
    Spread ')' (fun x => leadsKeyword x = true) d t (partFrom d t)
  | d, [] => .nil d
  | d, c :: t => by
    rw [partFrom]
    split
    · next hc =>
      obtain ⟨⟨rfl, rfl⟩, hled⟩ : (d = 1 ∧ c = ')') ∧
          leadsKeyword t = true := by
        simpa using hc
      exact .space rfl hled (spread_partFrom 0 t)
    · exact .keep (spread_partFrom _ t)

/-- The text with a space between each such bracket and its keyword is a parted
text. -/
theorem parted_part (t : Text) : Parted 0 t (part t) :=
  (spread_partFrom 0 t).mono fun _ _ hled => .inr (leadsKeyword_iff.1 hled)

/-- No two spaces come to stand in a row: a keyword starts with a letter. -/
theorem thin_part (h : t.Thin) : Thin (part t) := by
  have hspread : Spread ')' (fun x => x.head? ≠ some ' ') 0 t (part t) := by
    refine (spread_partFrom 0 t).mono fun x _ hx => ?_
    obtain ⟨k, hk, hled⟩ := leadsKeyword_iff.1 hx
    exact hled.head?_ne (isPhrase_keyword k hk)
  exact hspread.thin h

/-! ## Texts -/

/-- A text gives the query that it gives with its white space normalised and a
space between each bracket that closes its top level and a keyword behind it,
but for blanks, if no bracket holds the keyword. Its white space is normalised
by collapsing blanks, with the semicolon at the end or without it; another
semicolon must not come to stand at the end. -/
theorem parse_part {s n : Text} (hs : inert s = true) (hn : n = s.collapse ∨
    n = s.normalize ∧ n.getLast? ≠ some ';') (hh : isHeld s.normalize = false) :
    (parse (part n)).toOption.map Query.squeezed =
      (parse s).toOption.map Query.squeezed := by
  obtain ⟨hsp, hnormal, hinert⟩ := normal_of_inert hs hn
  have hthin := thin_part (thin_of_spaced hsp)
  have hnorm := (parted_part n).normalize kept_stuck (by decide) hsp hthin
  refine (parted_part n).parse_eq hs hnormal hinert fun literals => ?_
  refine hnorm.alike_readMasked fun _ => ?_
  have htrim := hnorm.respaced
  have hheld : isHeld n.normalize.trim = false := by
    rw [trim_of_trimmed (trimmed_normalize n), hnormal]
    exact hh
  refine htrim.parted.alike_readQuery maxDepth fun nested level => ?_
  exact htrim.alike_readClauses hheld

/-- A text with keywords behind brackets of several clauses, none of them
held. -/
def gluedText : Text :=
  "select (a)end b from (select c from f(d)where e)join t on g(h)and i where (j)group by (k)limit 1;".toList

/-- The text with a space between each bracket that closes the top level and the
keyword behind it. -/
def partedText : Text :=
  "select (a) end b from (select c from f(d)where e) join t on g(h) and i where (j) group by (k) limit 1".toList

/-- Keywords behind brackets of several clauses, and one behind a bracket of a
query in brackets. -/
theorem parse_part_glued :
    inert gluedText = true ∧ isHeld gluedText.normalize = false ∧
    part gluedText.normalize = partedText ∧
    (parse gluedText).toOption.isSome = true ∧
    (parse partedText).toOption.map Query.squeezed =
      (parse gluedText).toOption.map Query.squeezed := by
  have hs : inert gluedText = true := by decide +kernel
  have hh : isHeld gluedText.normalize = false := by decide +kernel
  have hp : part gluedText.normalize = partedText := by decide +kernel
  have hend : gluedText.normalize.getLast? ≠ some ';' := by decide +kernel
  refine ⟨hs, hh, hp, by decide +kernel, ?_⟩
  rw [← hp]
  exact parse_part hs (.inr ⟨rfl, hend⟩) hh

/-- The bracket holds the `where`, which goes into the name of the table. -/
theorem parse_part_held :
    inert "select a from f(x)where b = 1".toList = true ∧
    part (Text.normalize "select a from f(x)where b = 1".toList) =
      "select a from f(x) where b = 1".toList ∧
    (parse "select a from f(x) where b = 1".toList).toOption.isSome = true ∧
    parse "select a from f(x)where b = 1".toList =
      .error (.badAlias "b = 1".toList) := by
  decide +kernel

-- a held word makes the one behind it an alias, or is lost as a word before
-- `join`
example :
    (parse "select f(x)and y from t".toList).toOption.map Query.squeezed ≠
      (parse "select f(x) and y from t".toList).toOption.map Query.squeezed ∧
    (parse "select a from t join u on f(x)left join v".toList).toOption.map
      Query.squeezed ≠
      (parse "select a from t join u on f(x) left join v".toList).toOption.map
      Query.squeezed := by
  decide +kernel

end SqlRiver
