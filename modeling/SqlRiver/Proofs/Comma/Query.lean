import SqlRiver.Proofs.Comma.Joins
import SqlRiver.Proofs.Spread.Query

/-!
# Spaces behind commas

A comma parts the entries of a list whether a space follows it or not. It does
not part words for the search for keywords: a keyword that touches a comma is
found only once a space is put between them. So a text gives the same query,
but for blanks, with a space behind each comma and without it, as long as its
commas hide no keyword.

Main definitions and statements:

* `loosen`: a text with a space behind each comma of the top level.
* `alike_readClauses`: reading the clauses of a text and of the loosened text.
* `parse_loosen`: a text gives the query that the loosened text gives, but for
  blanks.
* `parse_loosen_hidden`: a comma that hides a keyword.
-/

namespace SqlRiver

open Text

variable {t u : Text} {nested : Nested} {literals : LiteralTable} {level : Nat}

/-! ## Clauses -/

/-- The clauses of an overt text and of the loosened text give the same query,
but for blanks. -/
theorem alike_readClauses (ho : Overt t) (h : Loosened 0 t u) :
    Alike (fun q q' => q'.squeezed = q.squeezed)
      (readClauses nested literals level t)
      (readClauses nested literals level u) := by
  refine (alike_readTrailing (by decide) ho h).bind ?_
  rintro ⟨limit, t⟩ ⟨limit', u⟩ ⟨hlimit, ho, h⟩
  refine (alike_readTrailing (by decide) ho h).bind ?_
  rintro ⟨offset, t⟩ ⟨offset', u⟩ ⟨hoffset, ho, h⟩
  refine (alike_readOrderBy ho h).bind ?_
  rintro ⟨orderBy, t⟩ ⟨_, u⟩ ⟨rfl, ho, h⟩
  refine (alike_readSelect ho h).bind ?_
  rintro ⟨⟨distinct, columns⟩, t⟩ ⟨_, u⟩ ⟨rfl, ho, h⟩
  refine (alike_readSources ho h).bind ?_
  rintro ⟨⟨source, listed⟩, t⟩ ⟨_, u⟩ ⟨rfl, ho, h⟩
  refine (alike_readJoins ho h).bind ?_
  rintro ⟨joined, t⟩ ⟨joined', u⟩ ⟨hjoined, ho, h⟩
  refine (alike_readFilter ho h).bind ?_
  rintro ⟨filter, t⟩ ⟨filter', u⟩ ⟨hfilter, ho, h⟩
  refine (alike_readGroupBy ho h).bind ?_
  rintro ⟨groupBy, t⟩ ⟨_, u⟩ ⟨rfl, ho, h⟩
  refine (alike_readHaving ho h).bind ?_
  rintro ⟨having, t⟩ ⟨having', u⟩ ⟨hhaving, -, h⟩
  refine h.alike_finish.bind ?_
  rintro _ _ -
  have hjoins := map_squeezed_of_squeezedOn hjoined
  simp only at hlimit hoffset hfilter hhaving
  simp only [Alike, Query.squeezed, allSqueezed_eq_map, List.map_append, hjoins,
    hlimit, hoffset, hfilter, hhaving]

/-! ## Loosened texts -/

/-- A text that starts at a given depth, with a space behind each comma of depth
zero. -/
def loosenFrom : Int → Text → Text
  | _, [] => []
  | d, c :: t =>
    if d == 0 && c == ',' && t.head? != some ' ' then
      ',' :: ' ' :: loosenFrom d t
    else c :: loosenFrom (d + depthStep c) t

/-- A text with a space behind each comma of the top level: one is put where
none follows. -/
def loosen (t : Text) : Text := loosenFrom 0 t

/-- No comma that a space is put behind had one. -/
theorem spread_loosenFrom : ∀ (d : Int) (t : Text),
    Spread ',' (fun x => x.head? ≠ some ' ') d t (loosenFrom d t)
  | d, [] => .nil d
  | d, c :: t => by
    rw [loosenFrom]
    split
    · next hc =>
      obtain ⟨⟨rfl, rfl⟩, hsp⟩ : (d = 0 ∧ c = ',') ∧ t.head? ≠ some ' ' := by
        simpa using hc
      exact .space rfl hsp (spread_loosenFrom 0 t)
    · exact .keep (spread_loosenFrom _ t)

/-- The text with a space behind each comma of its top level is a loosened
text. -/
theorem loosened_loosen (t : Text) : Loosened 0 t (loosen t) :=
  (spread_loosenFrom 0 t).anyhow

/-- A text gives the query that it gives with its white space normalised and a
space behind each comma, but for blanks, if its commas hide no keyword. Its
white space is normalised by collapsing blanks, with the semicolon at the end or
without it; another semicolon must not come to stand at the end. -/
theorem parse_loosen {s n : Text} (hs : inert s = true) (hn : n = s.collapse ∨
    n = s.normalize ∧ n.getLast? ≠ some ';') (ho : isOvert s.normalize = true) :
    (parse (loosen n)).toOption.map Query.squeezed =
      (parse s).toOption.map Query.squeezed := by
  obtain ⟨hsp, hnormal, hinert⟩ := normal_of_inert hs hn
  have hthin : Thin (loosen n) :=
    (spread_loosenFrom 0 n).thin (thin_of_spaced hsp)
  have hnorm := (loosened_loosen n).normalize kept_true (by decide) hsp hthin
  refine (loosened_loosen n).parse_eq hs hnormal hinert fun literals => ?_
  refine hnorm.alike_readMasked fun hb => ?_
  have hov : Overt n.normalize :=
    overt_of_isOvert ⟨thin_normalize n, hb⟩ (hnormal ▸ ho)
  have htrim := hnorm.trim kept_true
  exact htrim.alike_readQuery maxDepth fun _ _ =>
    alike_readClauses hov.trim htrim

/-- A text with commas of all clauses, and keywords behind some of them. -/
def tightText : Text :=
  "select a,left(b,c), and from t,u join v on d,case where e,or order by a,b;".toList

/-- The text with a space behind each comma of the top level. -/
def looseText : Text :=
  "select a, left(b,c), and from t, u join v on d, case where e, or order by a, b".toList

/-- Keywords behind commas that nothing is cut at there, and commas with a space
or a bracket behind them. -/
theorem parse_loosen_tight :
    inert tightText = true ∧ isOvert tightText.normalize = true ∧
    loosen tightText.normalize = looseText ∧
    (parse tightText).toOption.isSome = true ∧
    (parse looseText).toOption.map Query.squeezed =
      (parse tightText).toOption.map Query.squeezed := by
  have hs : inert tightText = true := by decide +kernel
  have ho : isOvert tightText.normalize = true := by decide +kernel
  have hl : loosen tightText.normalize = looseText := by decide +kernel
  have hend : tightText.normalize.getLast? ≠ some ';' := by decide +kernel
  refine ⟨hs, ho, hl, by decide +kernel, ?_⟩
  rw [← hl]
  exact parse_loosen hs (.inr ⟨rfl, hend⟩) ho

/-- The comma hides a `from`, which ends the select list as soon as a space
stands between them. -/
theorem parse_loosen_hidden :
    inert "select a,from from t".toList = true ∧
    loosen (Text.normalize "select a,from from t".toList) =
      "select a, from from t".toList ∧
    (parse "select a,from from t".toList).toOption.isSome = true ∧
    parse "select a, from from t".toList = .error (.emptyEntry .select) := by
  decide +kernel

-- of two semicolons one is left in the normal form, and none is left when that
-- is read
example :
    Text.normalize "select a from t;;".toList = "select a from t;".toList ∧
    parse "select a from t;".toList ≠ parse "select a from t;;".toList := by
  decide +kernel

end SqlRiver
