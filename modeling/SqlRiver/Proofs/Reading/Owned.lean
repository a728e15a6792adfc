import Mathlib.Data.List.Nodup
import SqlRiver.Proofs.Keyword.Marks
import SqlRiver.Proofs.Reading.Divided

/-!
# Where predicates are divided

A `between` owns an `and`: the first one behind it, at its own level of `case`s,
that no `between` before it owns. The `and`s that are free to divide a body are
those outside of every `case` that no `between` owns. Predicates are divided by
counting: an `and` divides if the predicate before it has no more `between`s
than `and`s and no more `case`s than `end`s. The count takes the `and`s and
`between`s inside a `case` for those outside, so the two agree as long as these
do not tip it: the *surplus* of a predicate, by how many `and`s outnumber the
`between`s inside its `case`s, must not be negative where a free `and` follows,
and must be less than the number of `between`s that wait for the next `and`.

Main definitions and statements:

* `Leveled`, `levels`: the marks of a body, with the number of open `case`s.
* `ownedFrom`, `freeAnds`, `piecesFrom`: the `and`s that `between`s own, the
  free ones, and the texts between these.
* `isFair`: the surplus tips no count.
* `regroup_eq_pieces`: predicates are divided where the count of the marks says
  so.
* `conditions_of_isFair`: the predicates of a clause are divided at the free
  `and`s.
-/

namespace SqlRiver

/-! ## Owned and free -/

/-- A mark with its position and the number of `case`s that are open before
it. -/
structure Leveled where
  /-- The position of the mark. -/
  pos : Nat
  /-- The number of `case`s that are open before it. -/
  level : Nat
  /-- The mark. -/
  mark : Mark
deriving DecidableEq, Repr

/-- The number of open `case`s behind a mark. An `end` without a `case` changes
nothing. -/
def Mark.next (level : Nat) : Mark → Nat
  | .opens => level + 1
  | .closes => level - 1
  | .and => level
  | .between => level

/-- The marks with their levels, when this many `case`s are open before them. -/
def levelsFrom : Nat → List (Nat × Mark) → List Leveled
  | _, [] => []
  | level, (pos, mark) :: ms =>
    ⟨pos, level, mark⟩ :: levelsFrom (mark.next level) ms

/-- The marks of a body with their levels. -/
def levels (t : Text) : List Leveled := levelsFrom 0 (marks t)

/-- The position of the `and` that a `between` at this level takes: the first
one ahead at the same level that is not owned. -/
def takenAhead? (owned : List Nat) (level : Nat) (xs : List Leveled) :
    Option Nat :=
  ((xs.filter fun y => y.mark = .and && y.level = level).find? fun y =>
    !owned.contains y.pos).map Leveled.pos

/-- The positions of the `and`s that are owned, when each `between` in turn
takes one. -/
def ownedFrom (owned : List Nat) : List Leveled → List Nat
  | [] => owned
  | ⟨_, level, .between⟩ :: xs =>
    ownedFrom ((takenAhead? owned level xs).toList ++ owned) xs
  | _ :: xs => ownedFrom owned xs

/-- Is this an `and` outside of every `case`? -/
def Leveled.isOuterAnd (x : Leveled) : Bool := x.mark = .and && x.level = 0

/-- The `and`s outside of every `case`. -/
def outerAnds (xs : List Leveled) : List Leveled := xs.filter Leveled.isOuterAnd

/-- The positions of the `and`s that are free to divide a body: those outside of
every `case` that no `between` owns. -/
def freeAnds (t : Text) : List Nat :=
  ((outerAnds (levels t)).filter fun x =>
    !(ownedFrom [] (levels t)).contains x.pos).map Leveled.pos

/-- The texts before, between and behind the `and`s at these positions, when the
text starts at the position `start`. -/
def piecesFrom (start : Nat) : List Nat → Text → List Text
  | [], t => [t]
  | pos :: ps, t =>
    t.take (pos - start) :: piecesFrom (pos + Mark.and.word.length) ps
      (t.drop (pos - start + Mark.and.word.length))

/-- Does the count of a predicate come out right at each `and` outside of its
`case`s, when `waiting` of its `between`s still lack their `and`, and `surplus`
more `and`s than `between`s have stood inside its `case`s? Each `end` has to
close a `case`. -/
def fairFrom (waiting : Nat) (surplus : Int) : List Leveled → Bool
  | [] => true
  | ⟨_, _, .opens⟩ :: xs => fairFrom waiting surplus xs
  | ⟨_, level, .closes⟩ :: xs => 0 < level && fairFrom waiting surplus xs
  | ⟨_, level, .between⟩ :: xs =>
    if level = 0 then
      fairFrom (waiting + 1) surplus xs else fairFrom waiting (surplus - 1) xs
  | ⟨_, level, .and⟩ :: xs =>
    if level ≠ 0 then fairFrom waiting (surplus + 1) xs
    else if waiting = 0 then 0 ≤ surplus && fairFrom 0 0 xs
    else surplus < waiting && fairFrom (waiting - 1) surplus xs

/-- Is the surplus inside the `case`s of a body such that no count is tipped by
it? -/
def isFair (t : Text) : Bool := fairFrom 0 0 (levels t)

/-! ## Owned by count -/

/-- The free `and`s by count: those outside of every `case` that no `between`
outside waits for. -/
def dividesFrom (waiting : Nat) : List Leveled → List Nat
  | [] => []
  | ⟨pos, level, .and⟩ :: xs =>
    if level ≠ 0 then dividesFrom waiting xs
    else if waiting = 0 then pos :: dividesFrom 0 xs
    else dividesFrom (waiting - 1) xs
  | ⟨_, level, .between⟩ :: xs =>
    dividesFrom (if level = 0 then waiting + 1 else waiting) xs
  | ⟨_, _, .opens⟩ :: xs => dividesFrom waiting xs
  | ⟨_, _, .closes⟩ :: xs => dividesFrom waiting xs

/-- What is owned stays owned. -/
theorem subset_ownedFrom (xs : List Leveled) (owned : List Nat) :
    owned ⊆ ownedFrom owned xs := by
  fun_induction ownedFrom owned xs with
  | case1 owned => exact List.Subset.refl owned
  | case2 owned pos level xs ih =>
    exact List.Subset.trans (List.subset_append_right _ _) ih
  | case3 owned x xs _ ih => exact ih

/-- What a `between` takes is an `and` ahead at its own level. -/
theorem mem_of_takenAhead? {owned : List Nat} {level pos : Nat}
    {xs : List Leveled} (h : takenAhead? owned level xs = some pos) :
    ∃ y ∈ xs, y.mark = .and ∧ y.level = level ∧ y.pos = pos := by
  obtain ⟨y, hy, rfl⟩ := Option.map_eq_some_iff.1 h
  obtain ⟨hy, htest⟩ := List.mem_filter.1 (List.mem_of_find?_eq_some hy)
  simp only [Bool.and_eq_true, decide_eq_true_eq] at htest
  exact ⟨y, hy, htest.1, htest.2, rfl⟩

/-- Every owned position was owned before or is the position of a mark. -/
theorem mem_of_mem_ownedFrom {xs : List Leveled} {owned : List Nat} {pos : Nat}
    (h : pos ∈ ownedFrom owned xs) :
    pos ∈ owned ∨ pos ∈ xs.map Leveled.pos := by
  fun_induction ownedFrom owned xs with
  | case1 owned => exact .inl h
  | case2 owned p level xs ih =>
    rcases ih h with h | h
    · rcases List.mem_append.1 h with h | h
      · obtain ⟨y, hy, -, -, rfl⟩ := mem_of_takenAhead? (by simpa using h)
        exact .inr (List.mem_cons_of_mem _ (List.mem_map_of_mem hy))
      · exact .inl h
    · exact .inr (List.mem_cons_of_mem _ h)
  | case3 owned x xs _ ih => exact (ih h).imp_right (List.mem_cons_of_mem _)

/-- Of these `and`s the first `waiting` ones are owned and the others are
not. -/
def OwnsFirst (owned : List Nat) : Nat → List Leveled → Prop
  | _, [] => True
  | 0, y :: ys => y.pos ∉ owned ∧ OwnsFirst owned 0 ys
  | waiting + 1, y :: ys => y.pos ∈ owned ∧ OwnsFirst owned waiting ys

/-- Another `and` may be owned that is not among these. -/
theorem OwnsFirst.insert {owned : List Nat} {pos : Nat} :
    ∀ {ys : List Leveled} {waiting : Nat}, OwnsFirst owned waiting ys →
      pos ∉ ys.map Leveled.pos → OwnsFirst (pos :: owned) waiting ys
  | [], _, _, _ => trivial
  | y :: ys, 0, h, hpos => by
    obtain ⟨hne, hpos⟩ := not_or.1 (mt List.mem_cons.2 hpos)
    refine ⟨fun hmem => ?_, h.2.insert hpos⟩
    rcases List.mem_cons.1 hmem with e | hmem
    · exact hne e.symm
    · exact h.1 hmem
  | y :: ys, waiting + 1, h, hpos =>
    ⟨List.mem_cons_of_mem _ h.1,
      h.2.insert fun hmem => hpos (List.mem_cons_of_mem _ hmem)⟩

/-- One more `between` takes the next one. -/
theorem OwnsFirst.take {owned : List Nat} :
    ∀ {ys : List Leveled} {waiting : Nat}, OwnsFirst owned waiting ys →
      (ys.map Leveled.pos).Nodup →
      OwnsFirst
        (((ys.find? fun y => !owned.contains y.pos).map Leveled.pos).toList ++
          owned) (waiting + 1) ys
  | [], _, _, _ => trivial
  | y :: ys, 0, h, hnodup => by
    have hfree : (!owned.contains y.pos) = true := by simpa using h.1
    simp only [List.find?_cons, hfree]
    exact ⟨List.mem_cons_self, h.2.insert (List.nodup_cons.1 hnodup).1⟩
  | y :: ys, waiting + 1, h, hnodup => by
    have hown : (!owned.contains y.pos) = false := by simpa using h.1
    have ih := h.2.take (List.nodup_cons.1 hnodup).2
    simp only [List.find?_cons, hown]
    exact ⟨List.mem_append_right _ h.1, ih⟩

/-- What a `between` takes keeps the owned outer `and`s first: one more of them
is owned if the `between` is outside of every `case`. -/
theorem ownsFirst_between {owned : List Nat} {waiting : Nat} {xs : List Leveled}
    (h : OwnsFirst owned waiting (outerAnds xs))
    (hnodup : (xs.map Leveled.pos).Nodup) (level : Nat) :
    OwnsFirst ((takenAhead? owned level xs).toList ++ owned)
      (if level = 0 then waiting + 1 else waiting) (outerAnds xs) := by
  by_cases hlevel : level = 0
  · subst hlevel
    have hsub : ((outerAnds xs).map Leveled.pos).Sublist (xs.map Leveled.pos) :=
      List.filter_sublist.map _
    rw [if_pos rfl]
    exact h.take (hnodup.sublist hsub)
  · rw [if_neg hlevel]
    cases htaken : takenAhead? owned level xs with
    | none => exact h
    | some pos =>
      -- the `and` stands inside a `case`, so it is not among the outer ones
      refine h.insert fun hmem => ?_
      obtain ⟨y, hy, -, rfl, e⟩ := mem_of_takenAhead? htaken
      obtain ⟨z, hz, e'⟩ := List.mem_map.1 hmem
      obtain ⟨hzx, hz⟩ := List.mem_filter.1 hz
      obtain rfl : z = y :=
        List.inj_on_of_nodup_map hnodup hzx hy (e'.trans e.symm)
      simp only [Leveled.isOuterAnd, Bool.and_eq_true, decide_eq_true_eq] at hz
      exact hlevel hz.2

/-- The free `and`s are those that the count finds. -/
theorem free_eq_dividesFrom :
    ∀ {xs : List Leveled} {owned : List Nat} {waiting : Nat},
      (xs.map Leveled.pos).Nodup → OwnsFirst owned waiting (outerAnds xs) →
      ((outerAnds xs).filter fun x => !(ownedFrom owned xs).contains x.pos).map
      Leveled.pos = dividesFrom waiting xs
  | [], _, _, _, _ => rfl
  | ⟨pos, level, .opens⟩ :: xs, owned, waiting, hnodup, h => by
    have ih :=
      @free_eq_dividesFrom xs owned waiting (List.nodup_cons.1 hnodup).2 h
    exact ih
  | ⟨pos, level, .closes⟩ :: xs, owned, waiting, hnodup, h => by
    have ih :=
      @free_eq_dividesFrom xs owned waiting (List.nodup_cons.1 hnodup).2 h
    exact ih
  | ⟨pos, level, .between⟩ :: xs, owned, waiting, hnodup, h => by
    have hnodup' := (List.nodup_cons.1 hnodup).2
    have hnext := @ownsFirst_between owned waiting xs h hnodup' level
    have ih := @free_eq_dividesFrom xs _ _ hnodup' hnext
    exact ih
  | ⟨pos, level, .and⟩ :: xs, owned, waiting, hnodup, h => by
    obtain ⟨hpos, hnodup'⟩ := List.nodup_cons.1 hnodup
    have ih := fun {waiting} => @free_eq_dividesFrom xs owned waiting hnodup'
    by_cases hlevel : level = 0
    · subst hlevel
      have houter : outerAnds (⟨pos, 0, .and⟩ :: xs) =
          ⟨pos, 0, .and⟩ :: outerAnds xs := rfl
      have howned :
          ownedFrom owned (⟨pos, 0, .and⟩ :: xs) = ownedFrom owned xs := rfl
      rw [houter] at h ⊢
      rw [howned, dividesFrom, if_neg (by simp)]
      cases waiting with
      | zero =>
        have hfree : pos ∉ ownedFrom owned xs :=
          fun hmem => (mem_of_mem_ownedFrom hmem).elim h.1 hpos
        rw [List.filter_cons_of_pos (by simpa using hfree), List.map_cons,
          ih h.2, if_pos rfl]
      | succ waiting =>
        have hown : pos ∈ ownedFrom owned xs := subset_ownedFrom xs owned h.1
        rw [List.filter_cons_of_neg (by simpa using hown), ih h.2,
          if_neg (by simp), Nat.add_sub_cancel]
    · have houter : outerAnds (⟨pos, level, .and⟩ :: xs) = outerAnds xs :=
        List.filter_cons_of_neg (by simp [Leveled.isOuterAnd, hlevel])
      rw [houter] at h ⊢
      rw [dividesFrom, if_pos hlevel]
      exact ih h

theorem map_pos_levelsFrom : ∀ (level : Nat) (ms : List (Nat × Mark)),
    (levelsFrom level ms).map Leveled.pos = ms.map Prod.fst
  | _, [] => rfl
  | level, (pos, mark) :: ms => by
    rw [levelsFrom, List.map_cons, List.map_cons,
      map_pos_levelsFrom (mark.next level) ms]

/-- No two marks of a text stand at one position. -/
theorem nodup_levels (t : Text) : ((levels t).map Leveled.pos).Nodup := by
  have hpairs : (marks t).Pairwise fun x y => x.1 < y.1 := by
    rw [marks, marksFrom, List.pairwise_filterMap]
    refine (pairwise_pos t).imp ?_
    rintro p q hlt ⟨i, m⟩ hm ⟨j, m'⟩ hm'
    obtain ⟨rfl, -⟩ := markAt?_eq_some_iff.1 hm
    obtain ⟨rfl, -⟩ := markAt?_eq_some_iff.1 hm'
    exact hlt
  rw [levels, map_pos_levelsFrom, List.Nodup, List.pairwise_map]
  exact hpairs.imp fun h => Nat.ne_of_lt h

/-- The `and`s that no `between` takes are those that are free by count. -/
theorem freeAnds_eq_dividesFrom (t : Text) :
    freeAnds t = dividesFrom 0 (levels t) := by
  refine free_eq_dividesFrom (nodup_levels t) ?_
  induction outerAnds (levels t) with
  | nil => trivial
  | cons y ys ih => exact ⟨List.not_mem_nil, ih⟩

/-! ## Divided by count -/

/-- The `and`s at which a predicate ends, when these marks have been seen in
it. -/
def cutsFrom (seen : List Mark) : List (Nat × Mark) → List Nat
  | [] => []
  | (pos, .and) :: ms =>
    if lacks seen then cutsFrom (seen ++ [.and]) ms else pos :: cutsFrom [] ms
  | (_, mark) :: ms => cutsFrom (seen ++ [mark]) ms

/-- Marks without an `and` among them are seen before the others. -/
theorem cutsFrom_append {ns : List (Nat × Mark)} :
    ∀ {ms : List (Nat × Mark)} {seen : List Mark}, .and ∉ ms.map Prod.snd →
      cutsFrom seen (ms ++ ns) = cutsFrom (seen ++ ms.map Prod.snd) ns
  | [], seen, _ => by simp
  | (pos, .and) :: ms, seen, h => absurd List.mem_cons_self h
  | (pos, .between) :: ms, seen, h => by
    have ih := @cutsFrom_append ns ms (seen ++ [.between]) fun hmem =>
      h (List.mem_cons_of_mem _ hmem)
    simpa [cutsFrom] using ih
  | (pos, .opens) :: ms, seen, h => by
    have ih := @cutsFrom_append ns ms (seen ++ [.opens]) fun hmem =>
      h (List.mem_cons_of_mem _ hmem)
    simpa [cutsFrom] using ih
  | (pos, .closes) :: ms, seen, h => by
    have ih := @cutsFrom_append ns ms (seen ++ [.closes]) fun hmem =>
      h (List.mem_cons_of_mem _ hmem)
    simpa [cutsFrom] using ih

/-- The cuts move with the marks. -/
theorem cutsFrom_shift (n : Nat) (ms : List (Nat × Mark)) (seen : List Mark) :
    cutsFrom seen (ms.map (shift n)) = (cutsFrom seen ms).map (· + n) := by
  fun_induction cutsFrom seen ms with
  | case1 => rfl
  | case2 seen pos ms hlacks ih => simp [cutsFrom, shift, hlacks, ih]
  | case3 seen pos ms hlacks ih => simp [cutsFrom, shift, hlacks, ih]
  | case4 seen pos mark ms hmark ih =>
    rw [← ih]
    cases mark with
    | and => exact absurd rfl hmark
    | between => rfl
    | opens => rfl
    | closes => rfl

theorem piecesFrom_shift (n : Nat) : ∀ (ps : List Nat) (start : Nat) (t : Text),
    piecesFrom (start + n) (ps.map (· + n)) t = piecesFrom start ps t
  | [], _, _ => rfl
  | pos :: ps, start, t => by
    rw [List.map_cons, piecesFrom, piecesFrom, Nat.add_sub_add_right,
      Nat.add_right_comm, piecesFrom_shift n ps]

/-- Behind a piece and the word that ends it are the pieces of what follows. -/
theorem piecesFrom_cons {p m c : Text} (hm : m.length = Mark.and.word.length)
    (ps : List Nat) :
    piecesFrom 0 (p.length :: ps.map (· + (p ++ m).length)) (p ++ (m ++ c)) =
      p :: piecesFrom 0 ps c := by
  have hdrop : (p ++ (m ++ c)).drop (p.length + Mark.and.word.length) = c := by
    rw [← List.drop_drop, List.drop_left, ← hm, List.drop_left]
  have hpieces := piecesFrom_shift (p.length + Mark.and.word.length) ps 0 c
  rw [Nat.zero_add] at hpieces
  rw [piecesFrom, List.length_append, hm, Nat.sub_zero, List.take_left, hdrop,
    hpieces]

section Stands

variable {u a m c : Text} (hu : depth u = 0)
  (hedge : u = [] ∨ atEdge (a ++ m ++ c).head? = true)
  (hs : Stands "and".toList a m c)
include hu hedge hs

/-- Up to the first `and` all marks are seen. What is cut behind it depends on
whether something is open there, when the predicate has started with `u`. -/
theorem cutsFrom_stands (habs : AbsentIn "and".toList a (m ++ c)) :
    cutsFrom ((marks u).map Prod.snd) (marks (a ++ m ++ c)) =
      if isOpen (u ++ a) then
        (cutsFrom ((marks (u ++ a)).map Prod.snd ++ [.and]) (marks c)).map
          (· + (a ++ m).length)
      else a.length :: (cutsFrom [] (marks c)).map (· + (a ++ m).length) := by
  have hcut : Cut u a := by
    rcases hedge with rfl | hedge
    · exact .inl rfl
    · cases a with
      | nil => exact .inr rfl
      | cons d a => exact .inr hedge
  have hseen : (marks (u ++ a)).map Prod.snd =
      (marks u).map Prod.snd ++ (marks a).map Prod.snd := by
    rw [marks_append hu hcut]
    simp [shift]
  have ha := and_not_mem_marks (habs.absent isPhrase_and (.inl hs.left))
  rw [marks_stands .and hs, cutsFrom_append ha, ← hseen, cutsFrom,
    ← isOpen_eq_lacks, cutsFrom_shift, cutsFrom_shift]

/-- An `and` that ends no predicate is the last mark seen in it. -/
theorem marks_upTo_and : (marks (u ++ a ++ m)).map Prod.snd =
    (marks (u ++ a)).map Prod.snd ++ [.and] := by
  have hua : depth (u ++ a) = 0 := by rw [depth_append, hu, hs.top]; rfl
  have hleft := atEdge_getLast?_append hs hedge isPhrase_and
  have h := marks_stands .and (c := []) ⟨hs.spelled, hua, hleft, rfl⟩
  rw [List.append_nil] at h
  rw [h, marks_nil]
  simp

end Stands

/-- Predicates end where the count of the marks says so, also if the first of
them has started with `u`. -/
theorem regroup_eq_pieces (t : Text) :
    ∀ u : Text, depth u = 0 → (u = [] ∨ atEdge t.head? = true) →
      regroup (u ++ (split "and".toList t).first) (split "and".toList t).rest =
        piecesFrom 0
          ((cutsFrom ((marks u).map Prod.snd) (marks t)).map (· + u.length))
          (u ++ t) := by
  refine split_phrase_induction isPhrase_and (P := fun t s =>
    ∀ u : Text, depth u = 0 → (u = [] ∨ atEdge t.head? = true) →
      regroup (u ++ s.first) s.rest =
        piecesFrom 0
          ((cutsFrom ((marks u).map Prod.snd) (marks t)).map (· + u.length))
          (u ++ t)) ?_ ?_ t
  · intro t habs u _ _
    have hnone := @cutsFrom_append [] (marks t) ((marks u).map Prod.snd)
      (and_not_mem_marks habs)
    rw [List.append_nil] at hnone
    rw [hnone]
    rfl
  · intro a m c s hs habs ih u hu hedge
    have hshift : (fun n : Nat => n + u.length) ∘ (· + (a ++ m).length) =
        (· + (u ++ a ++ m).length) := by
      funext n
      simp only [Function.comp_apply, List.length_append]
      omega
    rw [cutsFrom_stands hu hedge hs habs]
    simp only [regroup]
    split
    · -- the predicate goes on behind the `and`
      have hd : depth (u ++ a ++ m) = 0 := by
        rw [depth_append, depth_append, hu, hs.top,
          depth_spelling isPhrase_and hs.spelled]
        rfl
      have hnext := ih (u ++ a ++ m) hd (.inr hs.right)
      rw [hnext, marks_upTo_and hu hedge hs, List.map_map, hshift]
      simp
    · -- a predicate ends here, and none has started behind it
      have hnext := ih [] rfl (.inl rfl)
      rw [List.nil_append, marks_nil] at hnext
      have hstart : a.length + u.length = (u ++ a).length := by
        simp [Nat.add_comm]
      have htext : u ++ (a ++ m ++ c) = u ++ a ++ (m ++ c) := by simp
      rw [List.map_cons, List.map_map, hshift, hstart, htext,
        piecesFrom_cons (Text.length_eq_of_lower_eq hs.spelled)]
      simpa using hnext

/-! ## Fair bodies -/

/-- What has been seen of a predicate is what the scan of its levels tells: how
many `case`s are open, and by how many `and`s outnumber the `between`s. -/
theorem cutsFrom_eq_dividesFrom :
    ∀ {ms : List (Nat × Mark)} {seen : List Mark} {level waiting : Nat}
      {surplus : Int}, seen.count .opens = seen.count .closes + level →
      (seen.count .and : Int) + waiting = seen.count .between + surplus →
      fairFrom waiting surplus (levelsFrom level ms) = true →
      cutsFrom seen ms = dividesFrom waiting (levelsFrom level ms)
  | [], _, _, _, _, _, _, _ => rfl
  | (pos, .opens) :: ms, seen, level, waiting, surplus, hcase, hand, hf => by
    have ih :=
      @cutsFrom_eq_dividesFrom ms (seen ++ [.opens]) (level + 1) waiting surplus
    exact ih (by simp; omega) (by simpa using hand) hf
  | (pos, .closes) :: ms, seen, level, waiting, surplus, hcase, hand, hf => by
    have ih := @cutsFrom_eq_dividesFrom ms (seen ++ [.closes])
      (level - 1) waiting surplus
    obtain ⟨hlevel, hf⟩ : 0 < level ∧
        fairFrom waiting surplus (levelsFrom (level - 1) ms) = true := by
      simpa [levelsFrom, fairFrom, Mark.next] using hf
    exact ih (by simp; omega) (by simpa using hand) hf
  | (pos, .between) :: ms, seen, level, waiting, surplus, hcase, hand, hf => by
    have ih := fun {waiting surplus} =>
      @cutsFrom_eq_dividesFrom ms (seen ++ [.between]) level waiting surplus
    have hcase' : (seen ++ [Mark.between]).count .opens =
        (seen ++ [Mark.between]).count .closes + level := by
      simpa using hcase
    simp only [levelsFrom, fairFrom, dividesFrom, cutsFrom, Mark.next] at hf ⊢
    by_cases hlevel : level = 0
    · rw [if_pos hlevel] at hf ⊢
      exact ih hcase' (by simp; omega) hf
    · rw [if_neg hlevel] at hf ⊢
      exact ih hcase' (by simp; omega) hf
  | (pos, .and) :: ms, seen, level, waiting, surplus, hcase, hand, hf => by
    have ih := fun {seen waiting surplus} =>
      @cutsFrom_eq_dividesFrom ms seen level waiting surplus
    have hcase' : (seen ++ [Mark.and]).count .opens =
        (seen ++ [Mark.and]).count .closes + level := by
      simpa using hcase
    have hlacks : lacks seen = true ↔ seen.count .and < seen.count .between ∨
        seen.count .closes < seen.count .opens := by simp [lacks]
    simp only [levelsFrom, fairFrom, dividesFrom, cutsFrom, Mark.next] at hf ⊢
    by_cases hlevel : level = 0
    · have hnot : ¬ level ≠ 0 := not_not.2 hlevel
      rw [if_neg hnot] at hf ⊢
      by_cases hwaiting : waiting = 0
      · -- nothing waits for this `and`: it divides, and the next predicate
        -- starts
        rw [if_pos hwaiting] at hf ⊢
        obtain ⟨hsurplus, hf⟩ : 0 ≤ surplus ∧
            fairFrom 0 0 (levelsFrom level ms) = true := by
          simpa using hf
        have hclosed : ¬ lacks seen = true := by
          rw [hlacks]
          omega
        rw [if_neg hclosed, @ih [] 0 0 (by simpa using hlevel.symm) rfl hf]
      · rw [if_neg hwaiting] at hf ⊢
        obtain ⟨hsurplus, hf⟩ : surplus < waiting ∧
            fairFrom (waiting - 1) surplus (levelsFrom level ms) = true := by
          simpa using hf
        have hopen : lacks seen = true := by
          rw [hlacks]
          omega
        rw [if_pos hopen]
        exact ih hcase' (by simp; omega) hf
    · have hopen : lacks seen = true := by
        rw [hlacks]
        omega
      rw [if_pos (show level ≠ 0 from hlevel)] at hf ⊢
      rw [if_pos hopen]
      exact ih hcase' (by simp; omega) hf

/-! ## Clauses -/

/-- The predicates of a clause are divided at the free `and`s of its body, at
these and at no others, if the count comes out right. -/
theorem conditions_of_isFair {clause : Clause} {body : Text}
    {conds : List Condition}
    (h : conditions clause body = .ok conds) (hf : isFair body.trim = true) :
    conds = (piecesFrom 0 (freeAnds body.trim) body.trim).map fun p =>
      ⟨.and, p.trim⟩ := by
  obtain ⟨-, -, rfl⟩ := conditions_eq_ok_iff.1 h
  have hcuts : cutsFrom [] (marks body.trim) = freeAnds body.trim := by
    rw [freeAnds_eq_dividesFrom]
    exact cutsFrom_eq_dividesFrom rfl rfl hf
  have hpieces := regroup_eq_pieces body.trim [] rfl (.inl rfl)
  simp only [marks_nil, List.map_nil, List.nil_append, List.length_nil,
    Nat.add_zero, List.map_id', hcuts] at hpieces
  rw [predicates, hpieces, List.map_map]
  rfl

/-- One `and` is owned by the `between`, one stands inside the `case`, and two
divide. -/
theorem conditions_between_case :
    freeAnds (Text.trim
      "x BETWEEN 1 AND 5 and case when a and b then 1 end = 1 and (y)".toList) =
      [18, 55] ∧
    conditions .filter
      "x BETWEEN 1 AND 5 and case when a and b then 1 end = 1 and (y)".toList =
      .ok ((piecesFrom 0 [18, 55]
        (Text.trim
          "x BETWEEN 1 AND 5 and case when a and b then 1 end = 1 and (y)".toList)
        ).map fun p => ⟨.and, p.trim⟩) := by
  have h : conditions .filter
      "x BETWEEN 1 AND 5 and case when a and b then 1 end = 1 and (y)".toList =
      .ok [⟨.and, "x BETWEEN 1 AND 5".toList⟩,
        ⟨.and, "case when a and b then 1 end = 1".toList⟩,
        ⟨.and, "(y)".toList⟩] := by
    decide +kernel
  have hfree : freeAnds (Text.trim
      "x BETWEEN 1 AND 5 and case when a and b then 1 end = 1 and (y)".toList) =
      [18, 55] := by
    decide +kernel
  have e := conditions_of_isFair h (by decide +kernel)
  rw [hfree] at e
  exact ⟨hfree, by rw [h, e]⟩

/-- The `and` inside a `case` is counted for the `between` behind it, whose own
`and` then divides. -/
theorem conditions_case_between :
    conditions .filter "case when a and b then 1 end between 0 and 2".toList =
      .ok [⟨.and, "case when a and b then 1 end between 0".toList⟩,
      ⟨.and, "2".toList⟩] ∧
    freeAnds "case when a and b then 1 end between 0 and 2".toList = [] := by
  decide +kernel

end SqlRiver
