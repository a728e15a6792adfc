import SqlRiver.Proofs.Fold.Scan
import SqlRiver.Proofs.Line.Lists

/-!
# The marks of a body

Four words decide where the predicates of a clause are divided: `and`,
`between`, `case` and `end`. The *marks* of a text are the places of the top
level where one of them stands as a whole word. A text that is cut at an edge
has the marks of its two parts, and how often a word stands in a text is how
often it is among the marks.

Main definitions and statements:

* `Mark`, `marks`: the four words, and where they stand.
* `marks_append`: the marks of a text that is cut at an edge.
* `marks_stands`, `countTop_stands`: the marks of a text in which one of the
  words stands.
* `count_marks`, `isOpen_eq_lacks`: counting words is counting marks.
-/

namespace SqlRiver

/-- The words that decide where predicates are divided. -/
inductive Mark where
  | and
  | between
  /-- The word `case`. -/
  | opens
  /-- The word `end`. -/
  | closes
deriving DecidableEq, Repr

namespace Mark

/-- The word of a mark. -/
def word : Mark → Text
  | .and => "and".toList
  | .between => "between".toList
  | .opens => "case".toList
  | .closes => "end".toList

/-- All marks. -/
def all : List Mark := [.and, .between, .opens, .closes]

theorem isPhrase_word (m : Mark) : isPhrase m.word = true := by
  cases m <;> decide

theorem space_not_mem_word (m : Mark) : ' ' ∉ m.word := by
  cases m <;> decide

end Mark

/-- The mark at a place of the top level, with its position. -/
def markAt? (p : Place) : Option (Nat × Mark) :=
  if p.isTop then
    (Mark.all.find? fun m => p.holds m.word).map fun m => (p.pos, m) else none

/-- The marks of what is ahead of a place. -/
def marksFrom (pos : Nat) (before : Option Char) (depth : Int) (t : Text) :
    List (Nat × Mark) :=
  (placesFrom pos before depth t).filterMap markAt?

/-- The marks of a text, with their positions. -/
def marks (t : Text) : List (Nat × Mark) := marksFrom 0 none 0 t

/-- A mark with its position moved to the right. -/
def shift (n : Nat) (x : Nat × Mark) : Nat × Mark := (x.1 + n, x.2)

/-! ## Marks at a place -/

/-- No two of the words start with the same letter. -/
theorem eq_of_holds {p : Place} {m m' : Mark} (h : p.holds m.word = true)
    (h' : p.holds m'.word = true) : m = m' := by
  have hhead : ∀ {m : Mark}, p.holds m.word = true →
      p.ahead.head?.map Char.toLower = m.word.head? := by
    intro m h
    obtain ⟨hs, -⟩ := Bool.and_eq_true_iff.1 h
    obtain ⟨x, c, e, hx⟩ := Text.leads_iff.1 hs
    have h₀ := spelling_ne_nil m.isPhrase_word hx
    rw [e, List.head?_append_of_ne_nil _ h₀, ← Text.head?_lower, hx,
      lower_of_isPhrase m.isPhrase_word]
  have e := (hhead h).symm.trans (hhead h')
  cases m <;> cases m' <;> first | rfl | cases e

/-- A mark is at a place of the top level that holds its word. -/
theorem markAt?_eq_some_iff {p : Place} {pos : Nat} {m : Mark} :
    markAt? p = some (pos, m) ↔
    p.pos = pos ∧ p.isTop = true ∧ p.holds m.word = true := by
  unfold markAt?
  split
  · next htop =>
    rw [Option.map_eq_some_iff]
    constructor
    · rintro ⟨m', hfind, e⟩
      obtain ⟨rfl, rfl⟩ := Prod.mk.inj e
      exact ⟨rfl, htop, by simpa using List.find?_some hfind⟩
    · rintro ⟨rfl, -, h⟩
      refine ⟨m, ?_, rfl⟩
      cases hfind : Mark.all.find? fun m => p.holds m.word with
      | none =>
        have hall : m ∈ Mark.all := by cases m <;> decide
        exact absurd h (by simpa using List.find?_eq_none.1 hfind m hall)
      | some m' =>
        have hm' : p.holds m'.word = true := by
          simpa using List.find?_some hfind
        rw [eq_of_holds hm' h]
  · next htop => simp [htop]

/-- What is counted at the places of a word is counted among the marks. -/
theorem count_marks (m : Mark) (t : Text) :
    ((marks t).map Prod.snd).count m = countTop m.word t := by
  rw [countTop, topOccurrences_eq m.isPhrase_word, marks, marksFrom, ← places]
  induction places t with
  | nil => rfl
  | cons p ps ih =>
    rw [List.filterMap_cons, List.filter_cons]
    cases hp : markAt? p with
    | none =>
      have hnot : ¬ (p.isTop && p.holds m.word) = true := fun h => by
        obtain ⟨htop, hm⟩ := Bool.and_eq_true_iff.1 h
        rw [markAt?_eq_some_iff.2 ⟨rfl, htop, hm⟩] at hp
        cases hp
      rw [if_neg hnot]
      exact ih
    | some x =>
      obtain ⟨-, htop, hx⟩ := markAt?_eq_some_iff.1 hp
      by_cases hm : x.2 = m
      · subst hm
        simp [htop, hx, ih]
      · have hnot : ¬ (p.isTop && p.holds m.word) = true := fun h =>
          hm (eq_of_holds hx (Bool.and_eq_true_iff.1 h).2)
        rw [if_neg hnot, List.map_cons, List.count_cons_of_ne hm]
        exact ih

/-- Do marks still lack the `and` of a `between` or the `end` of a `case`? -/
def lacks (ms : List Mark) : Bool :=
  ms.count .and < ms.count .between || ms.count .closes < ms.count .opens

/-- A predicate is unfinished if its marks lack another one. -/
theorem isOpen_eq_lacks (t : Text) :
    isOpen t = lacks ((marks t).map Prod.snd) := by
  simp only [lacks, count_marks]
  rfl

/-- Whether a predicate is open depends on its counts only. -/
theorem isOpen_congr {t u : Text}
    (h : ∀ k : Mark, countTop k.word u = countTop k.word t) :
    isOpen u = isOpen t := by
  simp only [isOpen_eq_lacks, lacks, count_marks, h]

/-! ## Texts that are cut -/

/-- A word that starts before an edge ends there at the latest. -/
theorem holds_append {w : Text} (hw : isPhrase w = true) (hsp : ' ' ∉ w)
    {x y : Text} (hcut : Cut x y)
    (h₀ : x ≠ []) (pos : Nat) (before : Option Char) (d : Int) :
    (Place.mk pos before d (x ++ y)).holds w =
      (Place.mk pos before d x).holds w := by
  -- a spelling that reaches up to the cut leaves the edge to the other side
  have hright {m z : Text} (hm : (x ++ z).lower = w.lower) (hz : y = z ++ m) :
      z = [] ∧ atEdge y.head? = true := by
    have hedge := isEdge_of_mem_spelling hw hsp hm
    have hy : atEdge y.head? = true := by
      refine hcut.resolve_left fun hl => ?_
      obtain ⟨c, hc⟩ := Option.isSome_iff_exists.1 (List.getLast?_isSome.2 h₀)
      rw [hc, atEdge,
        hedge c (List.mem_append_left _ (List.mem_of_getLast? hc))] at hl
      cases hl
    refine ⟨?_, hy⟩
    cases z with
    | nil => rfl
    | cons c z =>
      rw [hz, List.cons_append, List.head?_cons, atEdge, hedge c (by simp)]
        at hy
      cases hy
  simp only [Place.holds, Place.spells, Place.isWhole, isWhole]
  rw [Bool.eq_iff_iff]
  simp only [Bool.and_eq_true, Text.leads_iff]
  constructor
  · rintro ⟨⟨m, c, e, hm⟩, hl, hr⟩
    rw [← Text.length_eq_of_lower_eq hm] at hr ⊢
    rw [e, List.drop_left] at hr
    rcases List.append_eq_append_iff.1 e with ⟨z, rfl, hz⟩ | ⟨z, rfl, rfl⟩
    · obtain ⟨rfl, -⟩ := hright hm hz
      refine ⟨⟨x, [], by simp, by simpa using hm⟩, hl, ?_⟩
      simp [atEdge]
    · refine ⟨⟨m, z, rfl, hm⟩, hl, ?_⟩
      rw [List.drop_left]
      cases z with
      | nil => rfl
      | cons d z => exact hr
  · rintro ⟨⟨m, c, rfl, hm⟩, hl, hr⟩
    rw [← Text.length_eq_of_lower_eq hm] at hr ⊢
    refine ⟨⟨m, c ++ y, by simp, hm⟩, hl, ?_⟩
    rw [List.drop_left] at hr
    rw [List.append_assoc, List.drop_left]
    cases c with
    | nil => exact (hright (m := y) (z := []) (by simpa using hm) rfl).2
    | cons d c => exact hr

theorem markAt?_append {x y : Text} (hcut : Cut x y) (h₀ : x ≠ []) (pos : Nat)
    (before : Option Char) (d : Int) :
    markAt? ⟨pos, before, d, x ++ y⟩ = markAt? ⟨pos, before, d, x⟩ := by
  simp only [markAt?,
    holds_append (Mark.isPhrase_word _) (Mark.space_not_mem_word _) hcut h₀]
  rfl

/-- No word starts at the end of a text or at an edge. -/
theorem markAt?_of_edge {p : Place} (h : atEdge p.ahead.head? = true) :
    markAt? p = none := by
  cases hp : markAt? p with
  | none => rfl
  | some x =>
    obtain ⟨-, -, hx⟩ := markAt?_eq_some_iff.1 hp
    obtain ⟨hs, -⟩ := Bool.and_eq_true_iff.1 hx
    obtain ⟨m, c, e, hm⟩ := Text.leads_iff.1 hs
    have hword := x.2.isPhrase_word
    rw [e, List.head?_append_of_ne_nil _ (spelling_ne_nil hword hm),
      isEdge_head_spelling hword hm] at h
    cases h

theorem marksFrom_nil (pos : Nat) (before : Option Char) (d : Int) :
    marksFrom pos before d [] = [] := by
  rw [marksFrom, placesFrom, List.filterMap_cons_none (markAt?_of_edge rfl)]
  rfl

@[simp] theorem marks_nil : marks [] = [] := marksFrom_nil 0 none 0

theorem marksFrom_cons (pos : Nat) (before : Option Char) (d : Int) (c : Char)
    (t : Text) :
    marksFrom pos before d (c :: t) =
      (markAt? ⟨pos, before, d, c :: t⟩).toList ++
      marksFrom (pos + 1) (some c) (d + depthStep c) t := by
  rw [marksFrom, placesFrom, List.filterMap_cons]
  cases markAt? ⟨pos, before, d, c :: t⟩ <;> rfl

/-- The marks of a text that is cut are those of both parts. -/
theorem marksFrom_append {y : Text} :
    ∀ {x : Text}, Cut x y → ∀ (pos : Nat) (before : Option Char) (d : Int),
      marksFrom pos before d (x ++ y) = marksFrom pos before d x ++
      marksFrom (pos + x.length) (x.getLast?.or before) (d + depth x) y
  | [], _, pos, before, d => by simp [marksFrom_nil]
  | c :: x, hcut, pos, before, d => by
    have hcut' : Cut x y := by
      cases x with
      | nil => exact .inl rfl
      | cons c' x => exact hcut
    have hlast := getLast?_cons_or c x before
    have ih := marksFrom_append hcut' (pos + 1) (some c) (d + depthStep c)
    have hfirst := markAt?_append hcut (List.cons_ne_nil c x) pos before d
    rw [List.cons_append] at hfirst ⊢
    rw [marksFrom_cons, marksFrom_cons, ih, hfirst, hlast, depth_cons,
      List.length_cons, List.append_assoc, Int.add_assoc, Nat.add_assoc,
      Nat.add_comm 1]

/-- Only whether there is an edge before a text matters to its marks. -/
theorem marksFrom_before {b : Option Char} {t : Text}
    (h : atEdge b = true ∨ atEdge t.head? = true) (pos : Nat) (d : Int) :
    marksFrom pos b d t = marksFrom pos none d t := by
  have hfirst : markAt? ⟨pos, b, d, t⟩ = markAt? ⟨pos, none, d, t⟩ := by
    rcases h with h | h
    · have hwhole : ∀ w : Text,
          Place.holds w ⟨pos, b, d, t⟩ = Place.holds w ⟨pos, none, d, t⟩ :=
        fun w => by
        simp only [Place.holds, Place.spells, Place.isWhole, isWhole, h]
        rfl
      simp only [markAt?, hwhole]
      rfl
    · rw [markAt?_of_edge h, markAt?_of_edge h]
  cases t with
  | nil => rw [marksFrom_nil, marksFrom_nil]
  | cons c t => rw [marksFrom_cons, marksFrom_cons, hfirst]

/-- The marks of a text further right stand further right. -/
theorem marksFrom_shift (n : Nat) :
    ∀ (t : Text) (pos : Nat) (before : Option Char) (d : Int),
      marksFrom (pos + n) before d t = (marksFrom pos before d t).map (shift n)
  | [], pos, before, d => by rw [marksFrom_nil, marksFrom_nil]; rfl
  | c :: t, pos, before, d => by
    have hfirst : markAt? ⟨pos + n, before, d, c :: t⟩ =
        (markAt? ⟨pos, before, d, c :: t⟩).map (shift n) := by
      simp only [markAt?, apply_ite (Option.map (shift n)), Option.map_map,
        Option.map_none]
      rfl
    rw [marksFrom_cons, marksFrom_cons, hfirst, List.map_append,
      ← marksFrom_shift n t, Option.toList_map, Nat.add_right_comm]

/-- The marks of a text that is cut at an edge of the top level. -/
theorem marks_append {x y : Text} (hd : depth x = 0) (hcut : Cut x y) :
    marks (x ++ y) = marks x ++ (marks y).map (shift x.length) := by
  rw [marks, marksFrom_append hcut, Option.or_none, hd, marksFrom_before hcut,
    marksFrom_shift]
  rfl

/-- Marks are found in every letter case. -/
theorem marks_lower (t : Text) : marks t.lower = marks t := by
  have hmark : ∀ p : Place, markAt? p.lower = markAt? p := fun p => by
    simp only [markAt?, Place.isTop_lower, Place.holds_lower, Place.pos_lower]
  rw [marks, marks, marksFrom, marksFrom, ← places, ← places, places_lower,
    List.filterMap_map]
  exact List.filterMap_congr fun p _ => hmark p

/-- The marks of a text in which one of the words stands. -/
theorem marks_stands (k : Mark) {a m c : Text} (hs : Stands k.word a m c) :
    marks (a ++ m ++ c) =
      marks a ++ (a.length, k) :: (marks c).map (shift (a ++ m).length) := by
  have hm : marks m = [(0, k)] := by
    rw [← marks_lower, hs.spelled]
    cases k <;> decide +kernel
  rw [marks_append (hs.depth_eq k.isPhrase_word) (.inr hs.right),
    marks_append hs.top (.inl hs.left), hm, List.append_assoc]
  simp [shift]

/-- One of the four words is counted where it stands first, and then in what
follows. -/
theorem countTop_stands (k : Mark) {a m c : Text} (hs : Stands k.word a m c)
    (habs : AbsentIn k.word a (m ++ c)) :
    countTop k.word (a ++ m ++ c) = countTop k.word c + 1 := by
  have ha : ((marks a).map Prod.snd).count k = 0 := by
    rw [count_marks, countTop_eq_zero_iff k.isPhrase_word]
    exact habs.absent k.isPhrase_word (.inl hs.left)
  have hc : ((marks c).map (shift (a ++ m).length)).map Prod.snd =
      (marks c).map Prod.snd := by
    rw [List.map_map]
    rfl
  rw [← count_marks, ← count_marks, marks_stands k hs, List.map_append,
    List.map_cons, List.count_append, List.count_cons_self, ha, hc,
    Nat.zero_add]

/-- A text in which no `and` stands has no such mark. -/
theorem and_not_mem_marks {t : Text} (h : Absent "and".toList t) :
    .and ∉ (marks t).map Prod.snd := by
  have hcount := count_marks .and t
  rw [show countTop Mark.and.word t = 0
    from (countTop_eq_zero_iff Mark.and.isPhrase_word).2 h] at hcount
  exact List.count_eq_zero.1 hcount

end SqlRiver
