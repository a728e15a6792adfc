import SqlRiver.Proofs.Keyword.Count
import SqlRiver.Proofs.Literal.Restored
import SqlRiver.Proofs.Literal.Spans
import SqlRiver.Proofs.Reading.Orderly

/-!
# Texts with spaces behind a sign

A comma or a closing bracket may touch the word behind it. Such a character
is called a *sign* here. A text is spread by putting a space behind some of
its signs, where the sign leaves the depth at zero. This moves no other
character, so that the parts of a text can be followed into the spread text,
and back: a cut of the spread text is a cut of the text unless it parts a
sign from the space that was put behind it. What depends on brackets or on
quotes is the same in both texts.

Main definitions and statements:

* `Sign`: a character that a space may be put behind.
* `Spread`: a text with spaces put behind some of its signs.
* `Kept`: what is asked of the texts behind these spaces is kept where a
  text is cut.
* `Spread.append`, `Spread.exists_append`, `Spread.cut`,
  `Spread.exists_parts`: parts of a text and of the spread text.
* `Spread.getLast?_cases`, `Spread.exists_trimmed`, `Spread.trim`: the ends
  of the spread text.
* `Spread.isBalanced_eq`, `Spread.unwrap?_cases`: brackets.
* `Spread.inert_eq`, `Spread.infix_iff`: quotes, and other texts in a text.
-/

namespace SqlRiver

open Text

/-- A character that a space may be put behind: it is neither blank nor a part
of a word, and it starts neither a quoted span nor a comment. -/
class Sign (s : Char) : Prop where
  not_blank : isBlank s = false
  not_word : isWordChar s = false
  not_quote : isQuote s = false
  ne_dash : s ≠ '-'
  ne_slash : s ≠ '/'

instance : Sign ',' := ⟨by decide, by decide, by decide, by decide, by decide⟩

instance : Sign ')' := ⟨by decide, by decide, by decide, by decide, by decide⟩

/-- The text `u` is `t` with a space put behind some of the signs `s` that
leave the depth at zero, when `t` starts at depth `d`. What follows such a
sign has the property `G`. -/
inductive Spread (s : Char) (G : Text → Prop) : Int → Text → Text → Prop
  | nil (d : Int) : Spread s G d [] []
  | keep {d : Int} {c : Char} {t u : Text}
    (h : Spread s G (d + depthStep c) t u) : Spread s G d (c :: t) (c :: u)
  | space {d : Int} {t u : Text} (hd : d + depthStep s = 0) (hg : G t)
    (h : Spread s G 0 t u) : Spread s G d (s :: t) (s :: ' ' :: u)

/-! ## Signs -/

section Sign

variable (s : Char) [Sign s]

/-- A sign differs from the space that is put behind it. -/
theorem Sign.ne_space : s ≠ ' ' := by
  rintro rfl
  cases Sign.not_blank (s := ' ')

theorem Sign.not_letter : s.toLower.isLower = false := by
  rw [Bool.eq_false_iff]
  intro h
  have hword := Sign.not_word (s := s)
  rw [isWordChar, Char.isAlphanum, isAlpha_of_toLower h] at hword
  cases hword

theorem Sign.not_mem_blank {g : Text} (hg : Blank g) : s ∉ g := fun h => by
  have := hg s h
  rw [Sign.not_blank] at this
  cases this

/-- No keyword is spelled with a sign. -/
theorem Sign.not_mem_spelling {w m : Text} (hw : isPhrase w = true)
    (hm : m.lower = w.lower) : s ∉ m := by
  intro hmem
  have hc : s.toLower ∈ w := by
    rw [← lower_of_isPhrase hw, ← hm]
    exact List.mem_map_of_mem hmem
  rcases mem_of_isPhrase hw _ hc with h | h
  · rw [Sign.not_letter s] at h
    cases h
  · exact Sign.ne_space s ((toLower_eq_iff (d := ' ') rfl).1 h)

end Sign

/-! ## Cuts between words -/

/-- No word runs over the cut between two texts. -/
def Apart (a b : Text) : Prop :=
  (∀ c ∈ a.getLast?, c.toLower.isLower = false) ∨
    ∀ c ∈ b.head?, c.toLower.isLower = false

/-- A property that a text keeps when more text is cut off its end, and that
the empty text has. -/
structure Kept (G : Text → Prop) : Prop where
  nil : G []
  left : ∀ {x b : Text}, Apart x b → G (x ++ b) → G x

theorem kept_true : Kept fun _ => True := ⟨trivial, fun _ _ => trivial⟩

theorem isLower_of_isEdge {c : Char} (h : isEdge c = true) :
    c.toLower.isLower = false := by
  rw [Bool.eq_false_iff]
  intro hl
  have := isEdge_of_isLower hl
  rw [isEdge_toLower, h] at this
  cases this

theorem isLower_of_isBlank {c : Char} (h : isBlank c = true) :
    c.toLower.isLower = false := by
  rw [Bool.eq_false_iff]
  intro hl
  have := isBlank_of_isLower hl
  rw [isBlank_toLower, h] at this
  cases this

/-- No word runs over a cut next to an edge. -/
theorem Cut.apart {a b : Text} (h : Cut a b) : Apart a b := by
  refine h.imp (fun h c hc => ?_) fun h c hc => ?_
  · rw [hc] at h
    exact isLower_of_isEdge h
  · rw [hc] at h
    exact isLower_of_isEdge h

theorem apart_blank_right {b : Text} (h : Blank b) (a : Text) : Apart a b :=
  .inr fun c hc => isLower_of_isBlank (h c (List.mem_of_head? hc))

/-- No word runs on into a sign. -/
theorem apart_sign (s : Char) [Sign s] (a b : Text) : Apart a (s :: b) :=
  .inr fun c hc => by
    obtain rfl : s = c := Option.some.inj hc
    exact Sign.not_letter s

namespace Spread

variable {s : Char} {G G' : Text → Prop} {d : Int} {t u a b : Text}

/-! ## Parts -/

/-- The depth behind a sign that leaves it at zero. -/
theorem depth_behind (hd : d + depthStep s = 0) (a : Text) :
    d + depth (s :: a) = 0 + depth a := by
  rw [depth_cons, ← Int.add_assoc, hd]

theorem refl (s : Char) (G : Text → Prop) :
    ∀ (d : Int) (t : Text), Spread s G d t t
  | d, [] => .nil d
  | _, _ :: t => .keep (refl s G _ t)

/-- Less may be asked of what follows the signs. -/
theorem mono (h : Spread s G d t u) (hg : ∀ x, x <:+ t → G x → G' x) :
    Spread s G' d t u := by
  induction h with
  | nil d => exact .nil d
  | keep _ ih =>
    exact .keep (ih fun x hx => hg x (hx.trans (List.suffix_cons _ _)))
  | @space d t u hd hx h ih =>
    refine .space hd (hg t (List.suffix_cons _ _) hx) (ih fun x hx => ?_)
    exact hg x (hx.trans (List.suffix_cons _ _))

/-- Nothing is asked of what follows the signs. -/
theorem anyhow (h : Spread s G d t u) : Spread s (fun _ => True) d t u :=
  h.mono fun _ _ _ => trivial

/-- Spread texts one behind the other are spread, if what the spaces need is
kept. -/
theorem append (h : Spread s (fun x => G (x ++ a)) d t u)
    (h' : Spread s G (d + depth t) a b) : Spread s G d (t ++ a) (u ++ b) := by
  induction h with
  | nil => simpa using h'
  | keep _ ih => exact .keep (ih (by rwa [Int.add_assoc]))
  | space hd hg _ ih =>
    refine .space hd hg (ih ?_)
    rwa [depth_behind hd] at h'

/-- Each cut of the text is one of the spread text: a space behind a sign at
the cut goes to the left. -/
theorem exists_append (h : Spread s G d (a ++ b) u) :
    ∃ a' b', u = a' ++ b' ∧ Spread s (fun x => G (x ++ b)) d a a' ∧
      Spread s G (d + depth a) b b' := by
  induction a generalizing d u with
  | nil => exact ⟨[], u, rfl, .nil d, by simpa using h⟩
  | cons c a ih =>
    cases h with
    | keep h =>
      obtain ⟨a', b', rfl, ha, hb⟩ := ih h
      exact ⟨c :: a', b', rfl, .keep ha, by rwa [depth_cons, ← Int.add_assoc]⟩
    | space hd hg h =>
      obtain ⟨a', b', rfl, ha, hb⟩ := ih h
      refine ⟨s :: ' ' :: a', b', rfl, .space hd hg ha, ?_⟩
      rwa [depth_behind hd]

/-- What was asked of texts with more text behind them is true of them alone,
where no word runs on into that text. -/
theorem of_append (hG : Kept G) (hcut : Apart a b)
    (h : Spread s (fun x => G (x ++ b)) d a t) : Spread s G d a t := by
  refine h.mono fun x hx hg => ?_
  by_cases h₀ : x = []
  · rw [h₀]
    exact hG.nil
  · obtain ⟨y, rfl⟩ := hx
    refine hG.left (hcut.imp_left fun hl => ?_) hg
    rwa [List.getLast?_append_of_ne_nil _ h₀] at hl

/-- Both parts are spread where no word runs over the cut. -/
theorem cut (hG : Kept G) (h : Spread s G d (a ++ b) u) (hcut : Apart a b) :
    ∃ a' b', u = a' ++ b' ∧ Spread s G d a a' ∧
      Spread s G (d + depth a) b b' := by
  obtain ⟨a', b', e, ha, hb⟩ := h.exists_append
  exact ⟨a', b', e, of_append hG hcut ha, hb⟩

/-- A cut of the spread text that parts no sign from a space behind it is one
of the text. -/
theorem exists_parts (h : Spread s G d t (a ++ b))
    (hcut : a.getLast? ≠ some s ∨ b.head? ≠ some ' ') :
    ∃ x y, t = x ++ y ∧ Spread s (fun z => G (z ++ y)) d x a ∧
      Spread s G (d + depth x) y b := by
  generalize e : a ++ b = v at h
  induction h generalizing a with
  | nil d =>
    obtain ⟨rfl, rfl⟩ := List.append_eq_nil_iff.1 e
    exact ⟨[], [], rfl, .nil d, .nil _⟩
  | @keep d c t u h ih =>
    cases a with
    | nil =>
      obtain rfl : b = c :: u := e
      exact ⟨[], c :: t, rfl, .nil d, by simpa using Spread.keep h⟩
    | cons c' a =>
      obtain ⟨rfl, e'⟩ := List.cons.inj e
      have hcut' : a.getLast? ≠ some s ∨ b.head? ≠ some ' ' := by
        refine hcut.imp_left fun hl => ?_
        cases a with
        | nil => simp
        | cons c a => rwa [List.getLast?_cons_cons] at hl
      obtain ⟨x, y, rfl, hx, hy⟩ := ih hcut' e'
      exact ⟨c' :: x, y, rfl, .keep hx, by rwa [depth_cons, ← Int.add_assoc]⟩
  | @space d t u hd hg h ih =>
    match a with
    | [] =>
      obtain rfl : b = s :: ' ' :: u := e
      exact ⟨[], s :: t, rfl, .nil d, by simpa using Spread.space hd hg h⟩
    | [c] =>
      obtain ⟨rfl, rfl⟩ := List.cons.inj e
      simp at hcut
    | c :: c' :: a =>
      obtain ⟨hc, e'⟩ := List.cons.inj e
      obtain ⟨rfl, e''⟩ := List.cons.inj e'
      subst c
      have hcut' : a.getLast? ≠ some s ∨ b.head? ≠ some ' ' := by
        refine hcut.imp_left fun hl => ?_
        cases a with
        | nil => simp
        | cons c a =>
          rwa [List.getLast?_cons_cons, List.getLast?_cons_cons] at hl
      obtain ⟨x, y, rfl, hx, hy⟩ := ih hcut' e''
      refine ⟨s :: x, y, rfl, .space hd hg hx, ?_⟩
      rwa [depth_behind hd]

/-! ## What stays as it is -/

theorem depth_eq (h : Spread s G d t u) : depth u = depth t := by
  induction h with
  | nil => rfl
  | keep _ ih => rw [depth_cons, depth_cons, ih]
  | space _ _ _ ih =>
    have hspace : depthStep ' ' = 0 := rfl
    rw [depth_cons, depth_cons, depth_cons, ih, hspace, Int.zero_add]

theorem head?_eq (h : Spread s G d t u) : u.head? = t.head? := by
  cases h <;> rfl

/-- No text is spread to nothing. -/
theorem eq_nil_iff (h : Spread s G d t u) : u = [] ↔ t = [] := by
  cases h <;> simp

theorem isEmpty_eq (h : Spread s G d t u) : u.isEmpty = t.isEmpty := by
  cases h <;> rfl

/-- The last character stays, or a space is put behind a sign at the end. -/
theorem getLast?_cases (h : Spread s G d t u) :
    u.getLast? = t.getLast? ∨
      t.getLast? = some s ∧ u.getLast? = some ' ' ∧ d + depth t = 0 := by
  induction h with
  | nil => exact .inl rfl
  | @keep d c t u h ih =>
    rw [Int.add_assoc, ← depth_cons] at ih
    cases h with
    | nil => exact .inl rfl
    | keep h => simpa only [List.getLast?_cons_cons] using ih
    | space _ _ h => simpa only [List.getLast?_cons_cons] using ih
  | @space d t u hd _ h ih =>
    rw [depth_behind hd]
    cases h with
    | nil => exact .inr ⟨rfl, rfl, rfl⟩
    | keep h => simpa only [List.getLast?_cons_cons] using ih
    | space _ _ h => simpa only [List.getLast?_cons_cons] using ih

/-- Something follows each space, unless the spread text ends with one. -/
theorem followed (h : Spread s G d t u) (hu : u.getLast? ≠ some ' ') :
    Spread s (fun x => G x ∧ x ≠ []) d t u := by
  induction h with
  | nil d => exact .nil d
  | @keep d c t u _ ih =>
    refine .keep (ih ?_)
    cases u with
    | nil => simp
    | cons c' u => rwa [List.getLast?_cons_cons] at hu
  | @space d t u hd hg h ih =>
    have hne : u ≠ [] := by
      rintro rfl
      exact hu rfl
    obtain ⟨c, u, rfl⟩ := List.exists_cons_of_ne_nil hne
    rw [List.getLast?_cons_cons, List.getLast?_cons_cons] at hu
    exact .space hd ⟨hg, fun h₀ => hne (h.eq_nil_iff.2 h₀)⟩ (ih hu)

/-- Spreading adds spaces only. -/
theorem mem_iff (h : Spread s G d t u) {c : Char} (hc : c ≠ ' ') :
    c ∈ u ↔ c ∈ t := by
  induction h with
  | nil => rfl
  | keep _ ih => rw [List.mem_cons, List.mem_cons, ih]
  | space _ _ _ ih =>
    rw [List.mem_cons, List.mem_cons, List.mem_cons, ih, or_iff_right hc]

/-- Only signs that leave the depth at zero get a space. -/
theorem eq_of_forall (h : Spread s G d t u)
    (hn : ∀ a b, t = a ++ s :: b → d + depth a + depthStep s = 0 → ¬ G b) :
    u = t := by
  induction h with
  | nil => rfl
  | @keep d c t u h ih =>
    rw [ih fun a b e hd => ?_]
    refine hn (c :: a) b (by rw [e]; rfl) ?_
    rwa [depth_cons, ← Int.add_assoc]
  | @space d t u hd hg h ih =>
    exact absurd hg (hn [] t rfl (by simpa using hd))

/-- A text without the sign is not spread. -/
theorem eq_of_not_mem (h : Spread s G d t u) (hn : s ∉ t) : u = t :=
  h.eq_of_forall fun a b e => absurd (by rw [e]; simp) hn

/-- No character comes to the top level but spaces. -/
theorem noTop {p : Char → Bool} (hp : p ' ' = false) (h : Spread s G 0 t u)
    (hn : NoTop p t) : NoTop p u := by
  intro a c b e hd
  by_cases hc : c = ' '
  · rw [hc, hp]
  · rw [e] at h
    obtain ⟨x, y, rfl, hx, hy⟩ := h.exists_parts (.inr (by simpa using hc))
    have hhead : y.head? = some c := hy.head?_eq.symm.trans rfl
    obtain ⟨y, rfl⟩ := List.head?_eq_some_iff.1 hhead
    exact hn x c y rfl (by rw [← hx.depth_eq, hd])

/-! ## Blanks -/

theorem spaceOnly (h : Spread s G d t u) (hs : SpaceOnly t) : SpaceOnly u := by
  intro c hc hb
  by_cases hsp : c = ' '
  · exact hsp
  · exact hs c ((h.mem_iff hsp).1 hc) hb

/-- No two spaces come to stand in a row, if no space follows the signs. -/
theorem thin [Sign s] (h : Spread s (fun x => x.head? ≠ some ' ') d t u)
    (ht : Thin t) : Thin u := by
  refine ⟨h.spaceOnly ht.spaceOnly, ?_⟩
  have hchain := ht.apart
  clear ht
  induction h with
  | nil => exact .nil
  | keep h ih =>
    obtain ⟨hc, ht⟩ := List.isChain_cons.1 hchain
    refine List.isChain_cons.2 ⟨fun e he => hc e ?_, ih ht⟩
    rwa [h.head?_eq] at he
  | space hd hg h ih =>
    obtain ⟨-, ht⟩ := List.isChain_cons.1 hchain
    refine List.isChain_cons_cons.2 ⟨.inl (Sign.ne_space s), ?_⟩
    refine List.isChain_cons.2 ⟨fun e he => .inr ?_, ih ht⟩
    rintro rfl
    rw [h.head?_eq] at he
    exact hg he

/-- A sign that ends a text may lose its space again. -/
theorem exists_trimmed [Sign s] (h : Spread s G d t u)
    (ht : ∀ c ∈ t.getLast?, isBlank c = false) :
    ∃ v r, u = v ++ r ∧ Blank r ∧ Spread s G d t v ∧
      ∀ c ∈ v.getLast?, isBlank c = false := by
  rcases h.getLast?_cases with hl | ⟨hl, -⟩
  · exact ⟨u, [], by simp, blank_nil, h, by rwa [hl]⟩
  · obtain ⟨x, rfl⟩ : ∃ x, t = x ++ [s] := List.getLast?_eq_some_iff.1 hl
    obtain ⟨v, w, rfl, hv, hw⟩ := h.exists_append
    have hlast : ∀ c ∈ (v ++ [s]).getLast?, isBlank c = false := by
      simpa only [List.getLast?_concat, Option.mem_def, Option.some.injEq,
        forall_eq'] using Sign.not_blank
    have hpart : Spread s G d (x ++ [s]) (v ++ [s]) :=
      hv.append (refl s G _ _)
    cases hw with
    | keep hw =>
      cases hw
      exact ⟨v ++ [s], [], by simp, blank_nil, hpart, hlast⟩
    | space _ _ hw =>
      cases hw
      exact ⟨v ++ [s], [' '], by simp, blank_spaces 1, hpart, hlast⟩

/-- Taking the spaces off the start keeps a text spread. -/
theorem trimStart [Sign s] (h : Spread s G 0 t u) :
    Spread s G 0 (Text.trimStart t) (Text.trimStart u) := by
  obtain ⟨l, hl, e, hx⟩ := exists_trimStart t
  rw [e] at h
  obtain ⟨l', x, rfl, hl', hx'⟩ := h.exists_append
  obtain rfl := hl'.eq_of_not_mem (Sign.not_mem_blank s hl)
  rw [depth_blank hl] at hx'
  rwa [trimStart_pad hl (by rwa [hx'.head?_eq])]

/-- Taking the spaces off the end keeps a text spread. -/
theorem trimEnd [Sign s] (hG : Kept G) (h : Spread s G 0 t u) :
    Spread s G 0 (Text.trimEnd t) (Text.trimEnd u) := by
  obtain ⟨r, hr, e, hx⟩ := exists_trimEnd t
  rw [e] at h
  obtain ⟨x, r', rfl, hx', hr'⟩ := h.cut hG (apart_blank_right hr _)
  obtain rfl := hr'.eq_of_not_mem (Sign.not_mem_blank s hr)
  obtain ⟨y, v, rfl, hv, hy, hlast⟩ := hx'.exists_trimmed hx
  rwa [List.append_assoc, trimEnd_pad (blank_append.2 ⟨hv, hr⟩) hlast]

/-- Without the blanks at its ends the spread text is the text without them,
spread. -/
theorem trim [Sign s] (hG : Kept G) (h : Spread s G 0 t u) :
    Spread s G 0 (Text.trim t) (Text.trim u) :=
  h.trimStart.trimEnd hG

/-! ## Brackets -/

/-- A space is no bracket. -/
theorem balancedFrom_space (n : Nat) (c : Char) (u : Text) :
    balancedFrom n (c :: ' ' :: u) = balancedFrom n (c :: u) := by
  have hsp (n : Nat) : balancedFrom n (' ' :: u) = balancedFrom n u := by
    simp [balancedFrom]
  cases n <;> simp only [balancedFrom.eq_def _ (c :: _), hsp]

theorem balancedFrom_eq {n : Nat} (h : Spread s G n t u) :
    balancedFrom n u = balancedFrom n t := by
  induction t generalizing n u with
  | nil =>
    cases h
    rfl
  | cons c t ih =>
    obtain ⟨v, hv, e⟩ : ∃ v, Spread s G (n + depthStep c) t v ∧
        balancedFrom n u = balancedFrom n (c :: v) := by
      cases h with
      | @keep _ _ _ v h => exact ⟨v, h, rfl⟩
      | @space _ _ v hd _ h =>
        exact ⟨v, by rwa [hd], balancedFrom_space n s v⟩
    rw [e]
    unfold balancedFrom
    split
    · next ho => exact ih (by simpa [depthStep, ho] using hv)
    · split
      · next ho hc =>
        cases n with
        | zero => rfl
        | succ n =>
          have hstep : depthStep c = -1 := by simp [depthStep, ho, hc]
          have hn : ((n + 1 : Nat) : Int) + depthStep c = n := by omega
          exact ih (hn ▸ hv)
      · next ho hc => exact ih (by simpa [depthStep, ho, hc] using hv)

theorem isBalanced_eq (h : Spread s G 0 t u) : isBalanced u = isBalanced t :=
  balancedFrom_eq (n := 0) h

/-- Only a closing bracket leads from some depth above zero to zero. -/
theorem eq_of_depthStep {n : Nat}
    (h : ((n + 1 : Nat) : Int) + depthStep s = 0) : s = ')' ∧ n = 0 := by
  by_cases ho : s = '('
  · subst ho
    simp only [depthStep, beq_self_eq_true, if_true] at h
    omega
  · by_cases hc : s = ')'
    · subst hc
      have hstep : depthStep ')' = -1 := rfl
      exact ⟨rfl, by omega⟩
    · have hstep : depthStep s = 0 := by simp [depthStep, ho, hc]
      omega

/-- Nothing inside brackets is spread, so their partners are found in the same
place. A space may be put behind the partner itself. -/
theorem closeFrom_cases {n : Nat} :
    ∀ {t u : Text}, Spread s G (n + 1 : Nat) t u →
      closeFrom n t = none ∧ closeFrom n u = none ∨
        ∃ inside tail tail' v, t = inside ++ ')' :: tail ∧
          u = inside ++ ')' :: tail' ∧
          closeFrom n t = some inside.length ∧
          closeFrom n u = some inside.length ∧
          (tail' = v ∨ s = ')' ∧ tail' = ' ' :: v) ∧ Spread s G 0 tail v := by
  intro t
  induction t generalizing n with
  | nil =>
    intro u h
    cases h
    exact .inl ⟨rfl, rfl⟩
  | cons c t ih =>
    intro u h
    cases h with
    | @space _ _ u hd _ h =>
      obtain ⟨rfl, rfl⟩ := eq_of_depthStep hd
      exact .inr ⟨[], t, ' ' :: u, u, rfl, rfl, rfl, rfl, .inr ⟨rfl, rfl⟩, h⟩
    | @keep _ _ _ u h =>
      -- what the search answers behind `c`, when it goes on there at the
      -- depth `k + 1`
      have hgo {k : Nat}
          (hk : ((n + 1 : Nat) : Int) + depthStep c = (k + 1 : Nat))
          (e : ∀ v : Text, closeFrom n (c :: v) = (closeFrom k v).map (· + 1)) :
          closeFrom n (c :: t) = none ∧ closeFrom n (c :: u) = none ∨
          ∃ inside tail tail' v, c :: t = inside ++ ')' :: tail ∧
          c :: u = inside ++ ')' :: tail' ∧
          closeFrom n (c :: t) = some inside.length ∧
          closeFrom n (c :: u) = some inside.length ∧
          (tail' = v ∨ s = ')' ∧ tail' = ' ' :: v) ∧ Spread s G 0 tail v := by
        rw [hk] at h
        rcases ih h with
          ⟨ht, hu⟩ | ⟨inside, tail, tail', v, rfl, rfl, ht, hu, htail⟩
        · exact .inl ⟨by rw [e, ht]; rfl, by rw [e, hu]; rfl⟩
        · exact .inr ⟨c :: inside, tail, tail', v, rfl, rfl,
            by rw [e, ht]; rfl, by rw [e, hu]; rfl, htail⟩
      by_cases ho : c = '('
      · subst ho
        exact hgo (k := n + 1) (by simp [depthStep]) fun v => rfl
      · by_cases hc : c = ')'
        · subst hc
          cases n with
          | zero =>
            have h : Spread s G 0 t u := by simpa [depthStep] using h
            exact .inr ⟨[], t, u, u, rfl, rfl, rfl, rfl, .inl rfl, h⟩
          | succ n =>
            have hstep : depthStep ')' = -1 := rfl
            exact hgo (k := n) (by omega) fun v => rfl
        · exact hgo (k := n) (by simp [depthStep, ho, hc])
            fun v => by simp [closeFrom, ho, hc]

/-- What the first bracket holds is the same in both texts. -/
theorem unwrap?_cases (h : Spread s G 0 t u) :
    unwrap? t = none ∧ unwrap? u = none ∨
      ∃ inside tail tail' v, t = '(' :: inside ++ ')' :: tail ∧
        u = '(' :: inside ++ ')' :: tail' ∧
        unwrap? t = some (inside, tail) ∧ unwrap? u = some (inside, tail') ∧
        (tail' = v ∨ s = ')' ∧ tail' = ' ' :: v) ∧ Spread s G 0 tail v := by
  by_cases ho : t.head? = some '('
  · obtain ⟨t, rfl⟩ := List.head?_eq_some_iff.1 ho
    cases h with
    | @keep _ _ _ u h =>
      rcases closeFrom_cases (n := 0) h with
        ⟨ht, hu⟩ | ⟨inside, tail, tail', v, rfl, rfl, ht, hu, htail⟩
      · exact .inl ⟨by rw [unwrap?, ht]; rfl, by rw [unwrap?, hu]; rfl⟩
      · refine .inr ⟨inside, tail, tail', v, rfl, rfl, ?_, ?_, htail⟩
        · rw [unwrap?, ht]
          simp
        · rw [unwrap?, hu]
          simp
    | space hd => cases hd
  · have hnone : ∀ {v : Text}, v.head? ≠ some '(' → unwrap? v = none := by
      intro v hv
      unfold unwrap?
      split
      · exact absurd rfl hv
      · rfl
    exact .inl ⟨hnone ho, hnone (by rwa [h.head?_eq])⟩

/-! ## Quotes, and other texts in a text -/

/-- Spreading opens no quoted span and no comment. -/
theorem inert_eq [Sign s] (h : Spread s G d t u) : inert u = inert t := by
  have hskip {c : Char} (hq : isQuote c = false) (hd : c ≠ '-') (hs : c ≠ '/')
      (v : Text) : inert (c :: v) = inert v := by
    rw [inert, opensComment_of_ne hd hs, hq]
    rfl
  have hsign := hskip (Sign.not_quote (s := s)) Sign.ne_dash Sign.ne_slash
  induction h with
  | nil => rfl
  | keep h ih => rw [inert, inert, ih, h.head?_eq]
  | space _ _ h ih =>
    rw [hsign, hskip (c := ' ') rfl (by decide) (by decide), hsign, ih]

/-- A text without signs is found at the start of the spread text where it was
at the start of the text. -/
theorem prefix_iff {w : Text} (hw : s ∉ w) (h : Spread s G d t u) :
    w <+: u ↔ w <+: t := by
  induction h generalizing w with
  | nil => rfl
  | keep h ih =>
    cases w with
    | nil => simp
    | cons e w =>
      rw [List.cons_prefix_cons, List.cons_prefix_cons,
        ih fun hm => hw (by simp [hm])]
  | space hd hg h ih =>
    cases w with
    | nil => simp
    | cons e w =>
      have he : e ≠ s := fun he => hw (by simp [he])
      simp [List.cons_prefix_cons, he]

/-- A text without signs and spaces is found in the spread text where it was
found in the text. -/
theorem infix_iff {w : Text} (hw : s ∉ w) (hsp : ' ' ∉ w)
    (h : Spread s G d t u) : w <:+: u ↔ w <:+: t := by
  induction h with
  | nil => rfl
  | keep h ih =>
    rw [List.infix_cons_iff, List.infix_cons_iff, ih,
      (Spread.keep h).prefix_iff hw]
  | space hd hg h ih =>
    have hskip (c : Char) (hc : c ∉ w) (v : Text) :
        w <:+: c :: v ↔ w <:+: v := by
      rw [← List.nil_append (c :: v), infix_append_cons hc, List.infix_nil]
      exact or_iff_right_of_imp fun h₀ => h₀ ▸ List.nil_infix
    rw [hskip s hw, hskip ' ' hsp, hskip s hw, ih]

end Spread

end SqlRiver
