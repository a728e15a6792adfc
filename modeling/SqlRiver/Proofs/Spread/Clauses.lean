import SqlRiver.Clause.Column
import SqlRiver.Proofs.Reading.Without
import SqlRiver.Proofs.Spread.Search

/-!
# Clauses of spread texts

A reader that is handed a spread text gives what it gives for the text, but
for blanks: both are refused, or the values differ in blanks only. This
module says what it means that values and results differ in blanks only, and
follows the parts of a clause into the spread text: the flag of a select
list, the predicates between `and`s, and the body of a clause.

Main definitions and statements:

* `Text.squeeze`: a text without its blanks.
* `Alike`: results that are both errors, or related values.
* `Alike.bind`, `Alike.bind_of_eq`: one step behind another.
* `Spread.stripDistinct`, `Spread.regroup`, `Spread.alike_conditions`,
  `Spread.bodyOf?_cases`: the parts of clauses.
-/

namespace SqlRiver

open Text

/-! ## Values up to blanks -/

/-- A text without its blanks. -/
def Text.squeeze (t : Text) : Text := t.filter fun c => !isBlank c

/-- A condition without the blanks of its predicate. -/
def Condition.squeezed (condition : Condition) : Condition :=
  { condition with predicate := condition.predicate.squeeze }

/-- A join without the blanks of its predicate. -/
def Join.squeezedOn (j : Join) : Join :=
  { j with onPredicate := j.onPredicate.map squeeze }

/-- A space behind a sign does not count. -/
theorem Spread.squeeze_eq {s : Char} {G : Text → Prop} {d : Int} {t u : Text}
    (h : Spread s G d t u) : squeeze u = squeeze t := by
  have hspace (v : Text) : squeeze (' ' :: v) = squeeze v := rfl
  induction h with
  | nil => rfl
  | keep _ ih =>
    simp only [squeeze, List.filter_cons] at ih ⊢
    rw [ih]
  | space _ _ _ ih =>
    simp only [squeeze, List.filter_cons] at ih hspace ⊢
    rw [hspace, ih]

/-! ## Results -/

/-- Both results are errors, or both are values that are related. -/
def Alike {α β : Type} (R : α → β → Prop) :
    Except ParseError α → Except ParseError β → Prop
  | .ok v, .ok v' => R v v'
  | .error _, .error _ => True
  | _, _ => False

section Result

variable {α α' β β' : Type} {R : α → α' → Prop} {S : β → β' → Prop}

theorem alike_refl {R : α → α → Prop} (hR : ∀ v, R v v)
    (x : Except ParseError α) : Alike R x x := by
  cases x with
  | error e => trivial
  | ok v => exact hR v

/-- Something else may be asked of the values, if it follows for those that the
two results hold. -/
theorem Alike.imp_of_eq {S : α → α' → Prop} {x : Except ParseError α}
    {x' : Except ParseError α'} (h : Alike R x x')
    (hS : ∀ v v', x = .ok v → x' = .ok v' → R v v' → S v v') :
    Alike S x x' := by
  cases x with
  | error e =>
    cases x' with
    | error e' => trivial
    | ok v' => cases h
  | ok v =>
    cases x' with
    | error e' => cases h
    | ok v' => exact hS v v' rfl rfl h

/-- Less may be asked of the values. -/
theorem Alike.imp {S : α → α' → Prop} {x : Except ParseError α}
    {x' : Except ParseError α'} (h : Alike R x x')
    (hS : ∀ v v', R v v' → S v v') : Alike S x x' :=
  h.imp_of_eq fun v v' _ _ => hS v v'

/-- One step behind another, which may look at what the first step gave. -/
theorem Alike.bind_of_eq {x : Except ParseError α} {x' : Except ParseError α'}
    {k : α → Except ParseError β} {k' : α' → Except ParseError β'}
    (hx : Alike R x x')
    (hk : ∀ v v', x = .ok v → x' = .ok v' → R v v' → Alike S (k v) (k' v')) :
    Alike S (x >>= k) (x' >>= k') := by
  cases x with
  | error e =>
    cases x' with
    | error e' => trivial
    | ok v' => cases hx
  | ok v =>
    cases x' with
    | error e' => cases hx
    | ok v' => exact hk v v' rfl rfl hx

/-- One step behind another. -/
theorem Alike.bind {x : Except ParseError α} {x' : Except ParseError α'}
    {k : α → Except ParseError β} {k' : α' → Except ParseError β'}
    (hx : Alike R x x') (hk : ∀ v v', R v v' → Alike S (k v) (k' v')) :
    Alike S (x >>= k) (x' >>= k') :=
  hx.bind_of_eq fun v v' _ _ => hk v v'

/-- Results whose values agree under a function. -/
theorem Alike.toOption_eq {f : α → β} {x x' : Except ParseError α}
    (h : Alike (fun v v' => f v' = f v) x x') :
    x'.toOption.map f = x.toOption.map f := by
  cases x with
  | error e =>
    cases x' with
    | error e' => rfl
    | ok v' => cases h
  | ok v =>
    cases x' with
    | error e' => cases h
    | ok v' => exact congrArg some h

/-- A list of texts gives what another list gives, if each of its texts
does. -/
theorem map_eq_of_forall₂ {R : α → α → Prop} {f : α → β} {xs ys : List α}
    (h : List.Forall₂ R xs ys) (hf : ∀ x ∈ xs, ∀ y, R x y → f y = f x) :
    ys.map f = xs.map f := by
  induction h with
  | nil => rfl
  | cons h _ ih =>
    rw [List.map_cons, List.map_cons, hf _ (by simp) _ h,
      ih fun x hx => hf x (List.mem_cons_of_mem _ hx)]

end Result

namespace Spread

variable {s : Char} [Sign s] {G : Text → Prop} {t u : Text} {clause : Clause}

/-! ## The select list -/

/-- The flag is the same, and what is left behind it is spread. -/
theorem stripDistinct (h : Spread s G 0 t u) :
    (SqlRiver.stripDistinct u).1 = (SqlRiver.stripDistinct t).1 ∧
      Spread s G 0 (SqlRiver.stripDistinct t).2
        (SqlRiver.stripDistinct u).2 := by
  rcases h.stripWord?_cases isPhrase_distinct with
    ⟨ht, hu⟩ | ⟨m, c, c', rfl, -, hc, ht, hu⟩
  · simpa only [SqlRiver.stripDistinct, ht, hu, true_and] using h
  · simpa only [SqlRiver.stripDistinct, ht, hu, true_and] using hc.trimStart

/-! ## Conditions -/

/-- The predicates of a clause, when `p` stands before the first of them. -/
theorem regroup {p p' : Text} (hp : Spread s (fun _ => True) 0 p p')
    (hdp : depth p = 0) (h : Spread s G 0 t u)
    (hedge : p = [] ∨ atEdge t.head? = true)
    (hd : ∀ k : Mark, ¬ Detached s k.word (p ++ t)) :
    List.Forall₂ (Spread s (fun _ => True) 0)
      (SqlRiver.regroup (p ++ (split "and".toList t).first)
        (split "and".toList t).rest)
      (SqlRiver.regroup (p' ++ (split "and".toList u).first)
        (split "and".toList u).rest) := by
  refine split_induction kept_true isPhrase_and (P :=
    fun t _ pieces pieces' => ∀ p p', Spread s (fun _ => True) 0 p p' →
    depth p = 0 → (p = [] ∨ atEdge t.head? = true) →
    (∀ k : Mark, ¬ Detached s k.word (p ++ t)) →
    List.Forall₂ (Spread s (fun _ => True) 0)
    (SqlRiver.regroup (p ++ pieces.first) pieces.rest)
    (SqlRiver.regroup (p' ++ pieces'.first) pieces'.rest)) ?_ ?_
    (fun hdt => hd .and (hdt.append_left hdp)) h.anyhow p p' hp hdp hedge hd
  · intro t u _ _ h p p' hp hdp _ _
    exact .cons (Spread.append hp (by rwa [hdp])) .nil
  · intro a m c a' c' _ _ hs _ _ ha hc ih p p' hp hdp hedge hd
    have hpa : Spread s (fun _ => True) 0 (p ++ a) (p' ++ a') :=
      Spread.append hp (by rwa [hdp])
    have hdm : depth (p ++ (a ++ m)) = 0 := by
      rw [depth_append, hdp, hs.depth_eq isPhrase_and]
      rfl
    -- the first predicate is open in both texts or in none
    have hopen : isOpen (p' ++ a') = isOpen (p ++ a) := by
      refine hpa.isOpen_eq fun k hk => hd k ?_
      have hedge' := atEdge_getLast?_append hs hedge isPhrase_and
      simpa using hk.append_right (b := m ++ c) k.isPhrase_word (.inl hedge')
    simp only [SqlRiver.regroup, hopen]
    split
    · have hpm : Spread s (fun _ => True) 0
          (p ++ (a ++ m)) (p' ++ (a' ++ m)) := by
        rw [← List.append_assoc, ← List.append_assoc]
        exact Spread.append hpa (refl s _ _ m)
      have hdc : ∀ k : Mark, ¬ Detached s k.word (p ++ (a ++ m) ++ c) := by
        simpa using hd
      simpa using ih _ _ hpm hdm (.inr hs.right) hdc
    · refine .cons hpa (ih [] [] (.nil 0) rfl (.inl rfl) fun k hk => hd k ?_)
      simpa using hk.append_left hdm

/-- The conditions of a clause differ in blanks only, if no word that divides
them is detached. -/
theorem alike_conditions (hd : ∀ k : Mark, ¬ Detached s k.word t.trim)
    (h : Spread s G 0 t u) :
    Alike (fun v v' => v'.map Condition.squeezed = v.map Condition.squeezed)
      (conditions clause t) (conditions clause u) := by
  have h := h.anyhow.trim kept_true
  have hpieces := regroup (.nil 0) rfl h (.inl rfl) hd
  have htrim {x y : Text} (h : Spread s (fun _ => True) 0 x y) :
      Spread s (fun _ => True) 0 x.trim y.trim := h.trim kept_true
  have hempty := map_eq_of_forall₂ (f := fun p => p.trim.isEmpty) hpieces
    fun _ _ _ h => (htrim h).isEmpty_eq
  have hsqueeze := map_eq_of_forall₂
    (f := fun p => Condition.squeezed ⟨.and, p.trim⟩) hpieces
    fun _ _ _ h => by simp only [Condition.squeezed, (htrim h).squeeze_eq]
  have hany := congrArg (List.any · id) hempty
  simp only [List.nil_append, List.any_map, Function.comp_def, id_eq]
    at hany hsqueeze
  simp only [conditions, h.isEmpty_eq, List.any_map, List.map_map,
    Function.comp_def, hany]
  split
  · trivial
  · split
    · trivial
    · simpa only [Alike, List.map_map, Function.comp_def] using hsqueeze

/-! ## Clauses at the start -/

/-- The part of a clause behind its phrase ends at the same phrase in both
texts, and the text behind that part is spread. -/
theorem bodyOf?_cases {ends : List Clause} (hG : Kept G)
    (hd : ∀ m c, t = m ++ c → Stands clause.phrase [] m c →
      ¬ DetachedFirst s (ends.map Clause.phrase) c)
    (h : Spread s G 0 t u) :
    bodyOf? clause ends t = none ∧ bodyOf? clause ends u = none ∨
      ∃ m body tail body' tail', t = m ++ (body ++ tail) ∧
        Stands clause.phrase [] m (body ++ tail) ∧
        UpTo (ends.map Clause.phrase) body tail ∧
        Spread s G 0 body body' ∧ Spread s G 0 tail tail' ∧
        bodyOf? clause ends t = some (body, tail.trim) ∧
        bodyOf? clause ends u = some (body', tail'.trim) := by
  have hends : ∀ w ∈ ends.map Clause.phrase, isPhrase w = true := by
    intro w hw
    obtain ⟨e, -, rfl⟩ := List.mem_map.1 hw
    exact isPhrase_phrase e
  rcases h.stripWord?_cases (isPhrase_phrase clause) with
    ⟨ht, hu⟩ | ⟨m, c, c', rfl, hs, hc, ht, hu⟩
  · exact .inl ⟨by rw [bodyOf?, ht]; rfl, by rw [bodyOf?, hu]; rfl⟩
  · obtain ⟨x, y, x', y', rfl, hup, hx, hy, htc, huc⟩ :=
      hc.cutBefore_cases hG hends (hd m c rfl hs)
    refine .inr ⟨m, x, y, x', y', rfl, hs, hup, hx, hy, ?_, ?_⟩
    · simp only [bodyOf?, ht, Option.map_some, htc]
    · simp only [bodyOf?, hu, Option.map_some, huc]

end Spread

end SqlRiver
