import SqlRiver.Clause.Join
import SqlRiver.Proofs.Closing.Parted

/-!
# Brackets that hold a keyword

Three searches look for spaces only: for the end of the name of a table, for the
last word of an entry, which may be an alias, and for the words before `join`.
For them a keyword that touches a closing bracket is one word with what stands
before the bracket. A bracket holds the keyword behind it where such a search
meets the two.

Main definitions and statements:

* `closings`: the cuts of a text at the brackets that close its top level.
* `nameHeld`, `entryHeld`, `modifiersHeld`: is a keyword held by the name of a
  table, in an entry of the select list, or before `join`?
* `isHeld`: is a keyword held anywhere in a query?
-/

namespace SqlRiver

open Text

/-! ## Closing brackets -/

/-- Does a keyword stand at the start of a text? -/
def leadsKeyword (t : Text) : Bool :=
  Keyword.all.any fun k => (stripWord? k.text t).isSome

/-- What stands before and behind each bracket that closes down to depth zero,
when the text starts at a given depth. -/
def closingsFrom : Int → Text → List (Text × Text)
  | _, [] => []
  | d, c :: t =>
    let later := (closingsFrom (d + depthStep c) t).map fun p => (c :: p.1, p.2)
    if d == 1 && c == ')' then ([], t) :: later else later

/-- What stands before and behind each bracket that closes the top level of a
text. -/
def closings (t : Text) : List (Text × Text) := closingsFrom 0 t

/-! ## Single parts -/

/-- Does the name of a table go on behind a bracket with a keyword behind it? A
query in brackets has no name. -/
def nameHeld (t : Text) : Bool :=
  t.head? != some '(' && (closings t).any fun p =>
    (topPosition? endsName p.1).isNone && leadsKeyword p.2

/-- Does a bracket hold the last word but one of an entry, when the last one may
be an alias? It may be one behind `end`, and none is looked for where an alias
stands behind `as`. -/
def entryHeld (entry : Text) : Bool :=
  (explicitAlias? entry).isNone && (closings entry).any fun p =>
    match Text.cutLast ' ' p.2 with
    | none => false
    | some (word, name) => isAlias name &&
      match Keyword.ofWord? (Text.trimEnd word) with
      | some k => k.text != "end".toList
      | none => false

/-- Does a bracket hold the words before `join` that choose its kind? -/
def modifiersHeld (piece : Text) : Bool :=
  (closings piece).any fun p =>
    !p.2.isEmpty && p.2.head? != some ' ' && (Text.words p.2).all isJoinModifier

/-! ## All parts of a query -/

/-- What stands before the last occurrence of a clause. -/
def beforeLast (clause : Clause) (t : Text) : Text :=
  match aroundLast? clause.phrase t with
  | some (before, _) => Text.trim before
  | none => t

/-- The select list of a query, without `distinct`, and what stands behind its
`from`. -/
def selected? (t : Text) : Option (Text × Text) :=
  (stripWord? Clause.select.phrase t).bind fun behind =>
    (aroundFirst? Clause.source.phrase behind).map fun p =>
      ((stripDistinct (Text.trim p.1)).2, Text.trim p.2)

/-- What stands behind the name of a table, or behind a query in brackets. -/
def behindName (t : Text) : Text :=
  match unwrap? t with
  | some (_, tail) => Text.trim tail
  | none => Text.trim (t.drop (namePosition t))

/-- What stands behind a source and its alias. -/
def behindSource (ends : List Text) (t : Text) : Text :=
  Text.trim ((behindName t).drop (aliasPosition ends (behindName t)))

/-- What stands behind each comma of the sources, at most `bound` of them, and
what stands behind the sources. -/
def listed : Nat → Text → List Text × Text
  | 0, t => ([], t)
  | bound + 1, t =>
    match t.stripComma? with
    | none => ([], t)
    | some source =>
      let more := listed bound (behindSource sourceEnds source)
      (source :: more.1, more.2)

/-- The sources behind `from`, each with all that follows it, and what stands
behind them. -/
def sourceTexts (t : Text) : List Text × Text :=
  let behind := behindSource sourceEnds t
  let more := listed behind.length behind
  (t :: more.1, more.2)

/-- Is a keyword held in the pieces behind each `join`? -/
def joinsHeld : List Text → Bool
  | [] => false
  | [piece] => nameHeld piece
  | piece :: more =>
    modifiersHeld piece || nameHeld (trailingModifiers piece).1 ||
      joinsHeld more

/-- The pieces behind each `join` of the joins at the start of a text. -/
def joinTexts (t : Text) : List Text :=
  (split Clause.join.phrase (cutBefore joinEnds t).1).pieces.tail

/-- Is a keyword held in a query without clauses at its end? -/
def headHeld (t : Text) : Bool :=
  match selected? t with
  | none => false
  | some (list, behind) =>
    (split [','] (Text.trim list)).pieces.any entryHeld ||
      (sourceTexts behind).1.any nameHeld ||
      joinsHeld (joinTexts (sourceTexts behind).2)

/-- Is a keyword held in a query? -/
def isHeld (t : Text) : Bool :=
  headHeld (beforeLast .orderBy (beforeLast .offset (beforeLast .limit t)))

/-! ## Tests -/

/-- A bracket that closes down to depth zero is found with both its sides. -/
theorem mem_closingsFrom (b : Text) : ∀ {d : Int} {a : Text}, d + depth a = 1 →
    (a, b) ∈ closingsFrom d (a ++ ')' :: b)
  | d, [], hd => by
    obtain rfl : d = 1 := by simpa using hd
    exact List.mem_cons_self
  | d, c :: a, hd => by
    have hlater : (c :: a, b) ∈
        (closingsFrom (d + depthStep c) (a ++ ')' :: b)).map fun p =>
        (c :: p.1, p.2) := by
      refine List.mem_map.2 ⟨(a, b), mem_closingsFrom b ?_, rfl⟩
      rwa [depth_cons, ← Int.add_assoc] at hd
    rw [List.cons_append, closingsFrom]
    split
    · exact List.mem_cons_of_mem _ hlater
    · exact hlater

theorem mem_closings {a : Text} (hd : depth a = 1) (b : Text) :
    (a, b) ∈ closings (a ++ ')' :: b) :=
  mem_closingsFrom b (by rwa [Int.zero_add])

/-- Where no keyword is held, none is in the entries, in the names, and in the
joins. -/
theorem forall_of_headHeld {t list behind : Text} (hh : headHeld t = false)
    (hs : selected? t = some (list, behind)) :
    (∀ entry ∈ (split [','] (Text.trim list)).pieces, entryHeld entry = false) ∧
      (∀ source ∈ (sourceTexts behind).1, nameHeld source = false) ∧
        joinsHeld (joinTexts (sourceTexts behind).2) = false := by
  rw [headHeld, hs] at hh
  obtain ⟨h, hj⟩ := Bool.or_eq_false_iff.1 hh
  obtain ⟨he, hn⟩ := Bool.or_eq_false_iff.1 h
  refine ⟨fun e hm => ?_, fun s hm => ?_, hj⟩
  · exact Bool.eq_false_iff.2 (List.any_eq_false.1 he e hm)
  · exact Bool.eq_false_iff.2 (List.any_eq_false.1 hn s hm)

/-- The test finds a keyword at the start of a text. -/
theorem leadsKeyword_iff {t : Text} :
    leadsKeyword t = true ↔ ∃ k ∈ Keyword.all, Led k.text t := by
  simp only [leadsKeyword, List.any_eq_true, Option.isSome_iff_exists,
    stripWord?_eq_some_iff]
  constructor
  · rintro ⟨k, hk, c, m, e, hs⟩
    exact ⟨k, hk, m, c, e, hs⟩
  · rintro ⟨k, hk, m, c, e, hs⟩
    exact ⟨k, hk, c, m, e, hs⟩

end SqlRiver
