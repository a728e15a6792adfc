import SqlRiver.Layout.Render

/-!
# Reading a layout again

A query is laid out, and the layout is read and laid out again. The layout is
stable if both texts are equal, and faithful if both queries are. Two queries
are equal if all their parts are, the queries in brackets and the tables of
quoted spans included. The test is a recursion over the first of the two, and
`DecidableEq` follows from the fact that it decides equality.

Main definitions and statements:

* `Query.same`: the test for equality.
* `Query.same_iff`: it holds exactly of equal queries.
* `RoundTrip`: the two layouts of a text.
* `roundTrip`: how a text fares.
-/

namespace SqlRiver

/-! ## Equality of queries -/

mutual

/-- Are two queries the same in every part? -/
def Query.same : Query → Query → Bool
  | { distinct, columns, source, joins, filter, groupBy, having, orderBy, limit,
      offset, literals, depth }, q =>
    distinct == q.distinct && columns == q.columns &&
      Source.same source q.source && Join.sameAll joins q.joins &&
      filter == q.filter && groupBy == q.groupBy && having == q.having &&
      orderBy == q.orderBy && limit == q.limit && offset == q.offset &&
      literals == q.literals && depth == q.depth

/-- Are two sources the same in every part? -/
def Source.same : Source → Source → Bool
  | .table name aliasName, .table name' aliasName' =>
    name == name' && aliasName == aliasName'
  | .subquery query aliasName, .subquery query' aliasName' =>
    Query.same query query' && aliasName == aliasName'
  | _, _ => false

/-- Are two joins the same in every part? -/
def Join.same : Join → Join → Bool
  | { kind, source, onPredicate, usingColumns }, j =>
    kind == j.kind && Source.same source j.source &&
      onPredicate == j.onPredicate && usingColumns == j.usingColumns

/-- Are two lists of joins the same, join by join? -/
def Join.sameAll : List Join → List Join → Bool
  | [], [] => true
  | j :: js, j' :: js' => Join.same j j' && Join.sameAll js js'
  | _, _ => false

end

mutual

/-- The test holds exactly of equal queries. -/
theorem Query.same_iff : ∀ q q' : Query, q.same q' = true ↔ q = q'
  | { distinct, columns, source, joins, filter, groupBy, having, orderBy, limit,
      offset, literals, depth }, q' => by
    obtain ⟨distinct', columns', source', joins', filter', groupBy', having',
        orderBy', limit', offset', literals', depth'⟩ := q'
    simp only [Query.same, Bool.and_eq_true, beq_iff_eq, Source.same_iff source
      source', Join.sameAll_iff joins joins', Query.mk.injEq, and_assoc]

/-- The test holds exactly of equal sources. -/
theorem Source.same_iff : ∀ s s' : Source, s.same s' = true ↔ s = s'
  | .table _ _, .table _ _ => by simp [Source.same]
  | .table _ _, .subquery _ _ => by simp [Source.same]
  | .subquery _ _, .table _ _ => by simp [Source.same]
  | .subquery query _, .subquery query' _ =>
    by simp [Source.same, Query.same_iff query query']

/-- The test holds exactly of equal joins. -/
theorem Join.same_iff : ∀ j j' : Join, j.same j' = true ↔ j = j'
  | { kind, source, onPredicate, usingColumns }, j' => by
    obtain ⟨kind', source', onPredicate', usingColumns'⟩ := j'
    simp only [Join.same, Bool.and_eq_true, beq_iff_eq,
      Source.same_iff source source', Join.mk.injEq, and_assoc]

/-- The test holds exactly of equal lists of joins. -/
theorem Join.sameAll_iff :
    ∀ js js' : List Join, Join.sameAll js js' = true ↔ js = js'
  | [], [] => by simp [Join.sameAll]
  | [], _ :: _ => by simp [Join.sameAll]
  | _ :: _, [] => by simp [Join.sameAll]
  | j :: js, j' :: js' =>
    by simp [Join.sameAll, Join.same_iff j j', Join.sameAll_iff js js']

end

instance : DecidableEq Query :=
  fun q q' => decidable_of_iff _ (Query.same_iff q q')

/-! ## Reading a layout again -/

/-- What comes of reading a layout again. -/
structure Again where
  /-- The layout of the query that is read from the first layout. -/
  second : Text
  /-- Is it the query that was laid out first, its table of quoted spans
  included? -/
  sameQuery : Bool
deriving DecidableEq, Repr

/-- A layout, and what comes of reading it again. -/
structure RoundTrip where
  /-- The layout. -/
  first : Text
  /-- What comes of reading it again. -/
  again : Except ParseError Again

/-- Is the second layout the first one? -/
def RoundTrip.isStable (trip : RoundTrip) (again : Again) : Bool :=
  trip.first == again.second

/-- Reads a text, lays it out, and reads and lays out that layout. -/
def roundTrip (o : Options) (t : Text) : Except ParseError RoundTrip :=
  (parse t).map fun query =>
    let first := render o query
    ⟨first, (parse first).map fun query' =>
      ⟨render o query', decide (query = query')⟩⟩

end SqlRiver
