import SqlRiver.Proofs.Split
import SqlRiver.Proofs.Text.Blank
import SqlRiver.Proofs.Text.Boundary

/-!
# Texts that are laid out of tokens

What a reader takes out of a text are its *tokens*: the pieces that it keeps,
and the brackets around the lists and queries that it opens. All else in the
text is filler: spaces, commas and whole keywords. `Laid b ts t a` says that the
text `t` is laid out of the tokens `ts` in this order with nothing but filler
between them, when the character `b` stands before the text and `a` behind it.
No token is cut out of the middle of a word, and every keyword among the filler
is a whole word.

Main definitions and statements:

* `Token`, `fillerWords`, `Laid`: the tokens, the keywords among the filler, and
  the relation.
* `Laid.append`, `Laid.append_cut`: texts one behind the other.
* `Laid.before`, `Laid.behind`: what stands around a text may change.
* `Laid.of_trim`, `laid_piece_trim`: blanks around a text are filler.
* `laid_keywords`: a text of keywords is filler.
-/

namespace SqlRiver

/-! ## Tokens -/

/-- What a reader takes out of a text. -/
inductive Token where
  /-- A text that is kept. -/
  | piece (t : Text)
  /-- The bracket that opens a query or a list. -/
  | opening
  /-- The bracket that closes it. -/
  | closing
deriving DecidableEq, Repr

/-- The characters of a token. -/
def Token.text : Token → Text
  | .piece t => t
  | .opening => ['(']
  | .closing => [')']

/-- The keywords that stand between tokens, in lower case. -/
def fillerWords : List Text :=
  ["select", "distinct", "as", "from", "left", "right", "inner", "outer",
    "full", "cross", "join", "on", "using", "where", "and", "group", "by",
    "having", "order", "offset", "limit"].map String.toList

/-- The text is laid out of the tokens, in order and with nothing but filler
between them, when `b` stands before it and `a` behind it. -/
inductive Laid : Option Char → List Token → Text → Option Char → Prop
  /-- Nothing is left. -/
  | nil {b a : Option Char} : Laid b [] [] a
  /-- A token, which does not start or end inside a word. -/
  | token {b a : Option Char} {k : Token} {ks : List Token} {t : Text} :
    k.text ≠ [] → runsOn b k.text.head? = false →
    runsOn k.text.getLast? (t.head?.or a) = false →
    Laid k.text.getLast? ks t a → Laid b (k :: ks) (k.text ++ t) a
  /-- A space between tokens. -/
  | space {b a : Option Char} {ks : List Token} {t : Text} :
    Laid (some ' ') ks t a → Laid b ks (' ' :: t) a
  /-- A comma between tokens. -/
  | comma {b a : Option Char} {ks : List Token} {t : Text} :
    Laid (some ',') ks t a → Laid b ks (',' :: t) a
  /-- A whole keyword between tokens. -/
  | word {b a : Option Char} {ks : List Token} {m t : Text} :
    m.lower ∈ fillerWords → atEdge b = true → atEdge (t.head?.or a) = true →
    Laid m.getLast? ks t a → Laid b ks (m ++ t) a

/-! ## Keywords at their ends -/

/-- A keyword is a phrase of one word. -/
theorem isPhrase_of_mem_fillerWords {w : Text} (h : w ∈ fillerWords) :
    isPhrase w = true := by
  revert w
  decide

/-- A keyword of any letter case starts and ends with a letter. -/
theorem filler_ends {m : Text} (h : m.lower ∈ fillerWords) :
    (∃ c, m.head? = some c ∧ isWordChar c = true) ∧
      ∃ c, m.getLast? = some c ∧ isWordChar c = true := by
  have hw := isPhrase_of_mem_fillerWords h
  have hletter {c : Char} (hc : c.toLower.isLower = true) :
      isWordChar c = true := by
    simp [isWordChar, Char.isAlphanum, isAlpha_of_toLower hc]
  obtain ⟨c, hc, hl⟩ := head?_spelling hw (m := m) (by simp)
  obtain ⟨d, hd, hl'⟩ := getLast?_spelling hw (m := m) (by simp)
  exact ⟨⟨c, hc, hletter hl⟩, d, hd, hletter hl'⟩

theorem filler_ne_nil {m : Text} (h : m.lower ∈ fillerWords) : m ≠ [] := by
  rintro rfl
  obtain ⟨⟨c, hc, -⟩, -⟩ := filler_ends h
  cases hc

namespace Laid

variable {b a : Option Char} {ks ls : List Token} {t u : Text}

/-! ## Texts one behind the other -/

/-- Two texts one behind the other are laid out of the tokens of both. -/
theorem append (ht : Laid b ks t (u.head?.or a))
    (hu : Laid (t.getLast?.or b) ls u a) : Laid b (ks ++ ls) (t ++ u) a := by
  generalize ha : u.head?.or a = a' at ht
  induction ht with
  | nil => simpa using hu
  | @token b _ k ks t hk hb hr h ih =>
    subst ha
    have hl : (k.text ++ t).getLast?.or b = t.getLast?.or k.text.getLast? := by
      rw [getLast?_append_or]
      obtain ⟨c, hc⟩ := Option.isSome_iff_exists.1 (List.getLast?_isSome.2 hk)
      simp [hc]
    rw [List.cons_append, List.append_assoc]
    exact .token hk hb (by rwa [head?_append_or]) (ih (hl ▸ hu) rfl)
  | @space b _ ks t h ih =>
    refine .space (ih ?_ ha)
    rwa [getLast?_cons_or] at hu
  | @comma b _ ks t h ih =>
    refine .comma (ih ?_ ha)
    rwa [getLast?_cons_or] at hu
  | @word b _ ks m t hm hb hr h ih =>
    subst ha
    have hl : (m ++ t).getLast?.or b = t.getLast?.or m.getLast? := by
      rw [getLast?_append_or]
      obtain ⟨-, c, hc, -⟩ := filler_ends hm
      simp [hc]
    rw [List.append_assoc]
    exact .word hm hb (by rwa [head?_append_or]) (ih (hl ▸ hu) rfl)

/-- What stands before a text may change where a word may start, or where the
text starts with no word. -/
theorem before (h : Laid none ks t a)
    (hb : atEdge b = true ∨ offWord t.head? = true) : Laid b ks t a := by
  cases h with
  | nil => exact .nil
  | @token _ _ k ks t hk _ hr h =>
    refine .token hk ?_ hr h
    rcases hb with hb | hb
    · exact runsOn_of_left (offWord_of_atEdge hb) _
    · refine runsOn_of_right ?_ _
      rwa [List.head?_append_of_ne_nil _ hk] at hb
  | space h => exact .space h
  | comma h => exact .comma h
  | @word _ _ ks m t hm _ hr h =>
    refine .word hm ?_ hr h
    rcases hb with hb | hb
    · exact hb
    · obtain ⟨⟨c, hc, hw⟩, -⟩ := filler_ends hm
      rw [List.head?_append_of_ne_nil _ (filler_ne_nil hm), hc] at hb
      simp [offWord, hw] at hb

/-- What stands behind a text may change where a word may end, or where the text
ends with no word. -/
theorem behind (h : Laid b ks t none)
    (ha : atEdge a = true ∨ offWord t.getLast? = true) : Laid b ks t a := by
  generalize hn : none = n at h
  -- what is left behind an item ends as the whole text does, unless nothing is
  -- left
  have hrest {m t : Text} (h : atEdge a = true ∨ offWord (m ++ t).getLast? =
      true) : atEdge a = true ∨ offWord t.getLast? = true := by
    refine h.imp_right fun h => ?_
    cases t with
    | nil => rfl
    | cons c t => rwa [List.getLast?_append_of_ne_nil _ (by simp)] at h
  induction h with
  | nil => exact .nil
  | @token _ _ k ks t hk hb hr h ih =>
    subst hn
    refine .token hk hb ?_ (ih (hrest ha) rfl)
    cases t with
    | cons c t => exact hr
    | nil =>
      rcases ha with ha | ha
      · exact runsOn_of_right (offWord_of_atEdge ha) _
      · exact runsOn_of_left (by simpa using ha) _
  | @space _ _ ks t h ih => exact .space (ih (hrest (m := [' ']) ha) hn)
  | @comma _ _ ks t h ih => exact .comma (ih (hrest (m := [',']) ha) hn)
  | @word _ _ ks m t hm hb hr h ih =>
    subst hn
    refine .word hm hb ?_ (ih (hrest ha) rfl)
    cases t with
    | cons c t => exact hr
    | nil =>
      rcases ha with ha | ha
      · exact ha
      · obtain ⟨-, c, hc, hw⟩ := filler_ends hm
        rw [List.append_nil, hc] at ha
        simp [offWord, hw] at ha

/-- Two texts may be put together where one of them has an edge. -/
theorem append_cut (ht : Laid none ks t none) (hu : Laid none ls u none)
    (h : Cut t u) : Laid none (ks ++ ls) (t ++ u) none := by
  refine append (ht.behind ?_) (hu.before ?_)
  · rw [Option.or_none]
    exact h.symm.imp_right offWord_of_atEdge
  · rw [Option.or_none]
    exact h.imp_right offWord_of_atEdge

end Laid

/-! ## Blanks -/

/-- No token is laid in spaces. -/
theorem laid_blank {b a : Option Char} :
    ∀ {t : Text}, t.Blank → t.SpaceOnly → Laid b [] t a
  | [], _, _ => .nil
  | c :: t, h, ht => by
    obtain rfl := ht c (by simp) (h c (by simp))
    refine .space (laid_blank (fun d hd => h d (by simp [hd])) fun d hd =>
      ht d (by simp [hd]))

theorem cut_blank_left {l : Text} (h : l.Blank) (hl : l.SpaceOnly) (t : Text) :
    Cut l t := by
  refine .inl ?_
  cases hd : l.getLast? with
  | none => rfl
  | some d =>
    have hm := List.mem_of_getLast? hd
    rw [hl d hm (h d hm)]
    rfl

theorem cut_blank_right {r : Text} (h : r.Blank) (hr : r.SpaceOnly) (t : Text) :
    Cut t r := by
  refine .inr ?_
  cases r with
  | nil => rfl
  | cons d r =>
    rw [hr d (by simp) (h d (by simp))]
    rfl

section Trim

variable {t : Text} {ks : List Token}

/-- The blanks around a text are filler. Where there are some, a space stands
next to what is left without them. -/
theorem Laid.of_trim_between {b a : Option Char} (ht : t.SpaceOnly)
    (h : ∀ b' a', b' = b ∨ b' = some ' ' → a' = a ∨ a' = some ' ' →
    Laid b' ks t.trim a') : Laid b ks t a := by
  obtain ⟨l, r, hl, hr, e⟩ := Text.exists_trim t
  have hl' : l.SpaceOnly := ht.of_subset (by rw [e]; simp)
  have hr' : r.SpaceOnly := ht.of_subset (by rw [e]; simp)
  generalize t.trim = x at *
  subst e
  have hleft : l.getLast?.or b = b ∨ l.getLast?.or b = some ' ' := by
    rcases l.eq_nil_or_concat' with rfl | ⟨l, d, rfl⟩
    · exact .inl rfl
    · rw [hl' d (by simp) (hl d (by simp)), List.getLast?_concat]
      exact .inr rfl
  have hright : r.head?.or a = a ∨ r.head?.or a = some ' ' := by
    cases r with
    | nil => exact .inl rfl
    | cons d r =>
      rw [hr' d (by simp) (hr d (by simp))]
      exact .inr rfl
  have hx := (h _ _ hleft hright).append (laid_blank (a := a) hr hr')
  have hlx := (laid_blank (b := b) (a := (x ++ r).head?.or a) hl hl').append hx
  simpa using hlx

/-- The spaces around a text are filler. -/
theorem Laid.of_trim (ht : t.SpaceOnly) (h : Laid none ks t.trim none) :
    Laid none ks t none := by
  refine .of_trim_between ht ?_
  rintro b a (rfl | rfl) (rfl | rfl)
  · exact h
  · exact h.behind (.inl rfl)
  · exact h.before (.inl rfl)
  · exact (h.before (.inl rfl)).behind (.inl rfl)

/-- A text is laid out of its trimmed self, if it does not start or end inside a
word. -/
theorem laid_piece_trim {b a : Option Char} (ht : t.SpaceOnly)
    (h₀ : t.trim ≠ []) (hb : runsOn b t.head? = false)
    (ha : runsOn t.getLast? a = false) : Laid b [.piece t.trim] t a := by
  obtain ⟨l, r, hl, hr, e⟩ := Text.exists_trim t
  have hl' : l.SpaceOnly := fun c hc => ht c (by rw [e]; simp [hc])
  have hr' : r.SpaceOnly := fun c hc => ht c (by rw [e]; simp [hc])
  generalize t.trim = x at *
  subst e
  have hleft : runsOn (l.getLast?.or b) x.head? = false := by
    rcases l.eq_nil_or_concat' with rfl | ⟨l, d, rfl⟩
    · rwa [List.nil_append, List.head?_append_of_ne_nil _ h₀] at hb
    · rw [hl' d (by simp) (hl d (by simp))]
      exact runsOn_of_left (by rw [List.getLast?_concat]; rfl) _
  have hright : runsOn x.getLast? (r.head?.or a) = false := by
    cases r with
    | nil => rwa [List.append_nil, List.getLast?_append_of_ne_nil _ h₀] at ha
    | cons d r =>
      rw [hr' d (by simp) (hr d (by simp))]
      exact runsOn_of_right rfl _
  rw [List.append_assoc]
  exact (laid_blank hl hl').append
    (Laid.token h₀ hleft hright (laid_blank hr hr'))

end Trim

/-! ## Keywords -/

/-- A text whose words are all keywords is filler. -/
theorem laid_keywords :
    ∀ {t : Text}, t.SpaceOnly → (∀ w ∈ t.words, w.lower ∈ fillerWords) →
      Laid none [] t none := by
  intro t
  induction hn : t.length using Nat.strongRecOn generalizing t with
  | ind n ih =>
    intro ht hw
    -- a word at the start, and what is left behind it
    have hsplit :=
      List.takeWhile_append_dropWhile (p := fun c => !isBlank c) (l := t)
    generalize hv : t.takeWhile (fun c => !isBlank c) = v at hsplit
    generalize hu : t.dropWhile (fun c => !isBlank c) = u at hsplit
    have hsolid : ∀ c ∈ v, isBlank c = false := by
      intro c hc
      rw [← hv] at hc
      have := List.mem_takeWhile_imp hc
      rwa [Bool.not_eq_true'] at this
    subst hsplit
    cases u with
    | nil =>
      rw [List.append_nil] at hw ⊢
      by_cases h₀ : v = []
      · exact h₀ ▸ .nil
      · have hm := hw v (by rw [Text.words_of_solid ⟨h₀, hsolid⟩]; simp)
        simpa using Laid.word (b := none) (a := none) hm rfl rfl .nil
    | cons d u =>
      have hd : isBlank d = true := by
        have := List.head?_dropWhile_not (fun c => !isBlank c) (v ++ d :: u)
        simpa [hu] using this
      obtain rfl := ht d (by simp) hd
      have hrest : Laid none [] u none := by
        refine ih u.length ?_ rfl (fun c hc => ht c (by simp [hc])) fun w h =>
          hw w ?_
        · rw [← hn, List.length_append, List.length_cons]
          omega
        · rw [Text.words_append rfl]
          exact List.mem_append_right _ h
      have hspace : Laid none [] (' ' :: u) none :=
        .space (hrest.before (.inl rfl))
      by_cases h₀ : v = []
      · simpa [h₀] using hspace
      · have hm : Text.lower v ∈ fillerWords := by
          refine hw v ?_
          rw [Text.words_append rfl, Text.words_of_solid ⟨h₀, hsolid⟩]
          simp
        exact .word hm rfl rfl (hspace.before (.inr rfl))

/-- Is every word of a phrase a keyword? -/
def isFiller (word : Text) : Bool := word.words.all fillerWords.contains

theorem isFiller_phrase (clause : Clause) : isFiller clause.phrase = true := by
  cases clause <;> decide

/-- A phrase of keywords is filler, in any letter case. -/
theorem laid_spelling {word m : Text} (hw : isFiller word = true)
    (hp : isPhrase word = true) (hm : m.lower = word.lower) :
    Laid none [] m none := by
  have hlow : word.lower = word := lower_of_isPhrase hp
  refine laid_keywords ?_ fun w h => ?_
  · intro c hc hb
    have hc' : c.toLower ∈ word := by
      rw [← hlow, ← hm]
      exact List.mem_map_of_mem hc
    rcases mem_of_isPhrase hp _ hc' with h | h
    · have : isBlank c.toLower = false := isBlank_of_isLower h
      rw [isBlank_toLower, hb] at this
      cases this
    · exact (toLower_eq_iff rfl).1 h
  · have h' : w.lower ∈ word.words := by
      rw [← hlow, ← hm, Text.words_lower]
      exact List.mem_map_of_mem h
    simpa using List.all_eq_true.1 hw _ h'

section Stands

variable {word x m y : Text} {ks ls : List Token}

/-- A keyword between two texts is filler, if it has edges on both sides. -/
theorem Laid.stands_between {b a : Option Char} (hw : isFiller word = true)
    (hp : isPhrase word = true) (hm : m.lower = word.lower)
    (hb : atEdge (x.getLast?.or b) = true) (ha : atEdge (y.head?.or a) = true)
    (hx : Laid b ks x none) (hy : Laid none ls y a) :
    Laid b (ks ++ ls) (x ++ m ++ y) a := by
  have hx' : offWord x.getLast? = true := by
    cases h : x.getLast? with
    | none => rfl
    | some c => exact offWord_of_atEdge (by simpa [h] using hb)
  have hy' : offWord y.head? = true := by
    cases h : y.head? with
    | none => rfl
    | some c => exact offWord_of_atEdge (by simpa [h] using ha)
  have hmy :=
    ((laid_spelling hw hp hm).behind (.inl ha)).append (hy.before (.inr hy'))
  rw [List.append_assoc]
  exact (hx.behind (.inr hx')).append (hmy.before (.inl hb))

/-- Tokens are laid on both sides of a word that is filler. -/
theorem Laid.stands (hw : isFiller word = true) (hp : isPhrase word = true)
    (hs : Stands word x m y) (hx : Laid none ks x none)
    (hy : Laid none ls y none) : Laid none (ks ++ ls) (x ++ m ++ y) none := by
  refine .stands_between hw hp hs.spelled ?_ ?_ hx hy
  · rw [Option.or_none]
    exact hs.left
  · rw [Option.or_none]
    exact hs.right

end Stands

end SqlRiver
