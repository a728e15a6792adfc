import SqlRiver.Proofs.Keyword.Absence
import SqlRiver.Proofs.Layout.Chunks
import SqlRiver.Proofs.Reading.Sources

/-!
# Texts that are clear of a keyword

On the line of a query a piece is followed by nothing or by a keyword behind a
space: a *sequel*. A text is *clear* of a word if the word does not stand in it,
whatever sequel follows. Clear texts can be put one behind the other, so a line
is clear of a word if its pieces are.

Main definitions and statements:

* `Sequel`: what may follow a piece.
* `Clear`, `Clear.append`, `Clear.absent`: texts that are clear of a word.
* `clear_piece`, `clear_list`, `clear_alias`, `clear_brackets`: the parts of a
  line.
* `Clear.led`: a keyword and what it leads.
-/

namespace SqlRiver

open Text

variable {w word p x y z : Text} {o : Options}

/-! ## Sequels -/

/-- Nothing, or a space and what follows it. No keyword that follows a piece
starts like `by`. -/
def Sequel (y : Text) : Prop :=
  y = [] ∨ ∃ z, y = ' ' :: z ∧ ∀ c ∈ z.head?, c.toLower ≠ 'b'

theorem sequel_nil : Sequel [] := .inl rfl

/-- A sequel may be followed by a sequel. -/
theorem Sequel.append (hx : Sequel x) (hy : Sequel y) : Sequel (x ++ y) := by
  rcases hx with rfl | ⟨z, rfl, hz⟩
  · exact hy
  · refine .inr ⟨z ++ y, rfl, ?_⟩
    cases z with
    | nil =>
      rcases hy with rfl | ⟨z, rfl, -⟩
      · exact hz
      · rintro c ⟨⟩
        decide
    | cons d z => exact hz

theorem Sequel.atEdge (h : Sequel y) : atEdge y.head? = true := by
  rcases h with rfl | ⟨z, rfl, -⟩ <;> rfl

theorem Sequel.parts (hw : isPhrase w = true) (h : Sequel y) : Parts w y := by
  rcases h with rfl | ⟨z, rfl, hz⟩
  · exact parts_nil hw
  · exact parts_space hw hz

theorem head?_keyword (o : Options) (word : Text) :
    (o.keyword word).head?.map Char.toLower = word.head?.map Char.toLower := by
  rw [← List.head?_map, ← List.head?_map]
  exact congrArg List.head? (lower_keyword o word)

/-- A keyword that does not start like `by` may follow a piece. -/
theorem sequel_keyword (o : Options) {word : Text}
    (h : ∃ c u, word = c :: u ∧ c.toLower ≠ 'b') (z : Text) :
    Sequel (' ' :: (o.keyword word ++ z)) := by
  obtain ⟨c, u, rfl, hc⟩ := h
  obtain ⟨d, v, hd⟩ :=
    List.exists_cons_of_ne_nil (keyword_ne_nil o (List.cons_ne_nil c u))
  have hlower := head?_keyword o (c :: u)
  rw [hd] at hlower ⊢
  obtain hlower : d.toLower = c.toLower := by simpa using hlower
  refine .inr ⟨d :: v ++ z, rfl, ?_⟩
  rintro e ⟨⟩
  rwa [hlower]

/-! ## Clear texts -/

/-- The text is at the top level throughout its ends, and the word does not
stand in it, whatever sequel follows. -/
structure Clear (w x : Text) : Prop where
  top : depth x = 0
  absentIn : ∀ y, Sequel y → AbsentIn w x y

theorem clear_nil (w : Text) : Clear w [] :=
  ⟨rfl, fun y _ => absentIn_nil_left w y⟩

/-- A clear text behind a clear text is clear, if it may follow a piece. -/
theorem Clear.append (hx : Clear w x) (hy : Clear w y) (hs : Sequel y) :
    Clear w (x ++ y) :=
  ⟨by simp [hx.top, hy.top],
    fun z hz => (hx.absentIn _ (hs.append hz)).append hx.top (hy.absentIn z hz)⟩

theorem Clear.absent (hw : isPhrase w = true) (h : Clear w x) : Absent w x :=
  (absentIn_nil_iff hw).1 (h.absentIn [] sequel_nil)

theorem clear_piece (hw : isPhrase w = true) (hd : depth p = 0)
    (h : Absent w p) : Clear w p :=
  ⟨hd, fun _ hy => h.absentIn (hy.parts hw)⟩

/-- A character that is no letter starts no word. -/
theorem absentIn_char (hw : isPhrase w = true) {c : Char}
    (hc : c.toLower.isLower = false) (y : Text) : AbsentIn w [c] y := by
  intro a v m u hav hv hmu hs
  obtain ⟨d, hd, hl⟩ := head?_spelling hw hs.spelled
  have hvc : v = [c] := by
    cases a with
    | nil => exact hav.symm
    | cons e a =>
      obtain ⟨-, h⟩ := List.cons.inj hav
      exact absurd (List.append_eq_nil_iff.1 h.symm).2 hv
  obtain ⟨e, m, rfl⟩ :=
    List.exists_cons_of_ne_nil (spelling_ne_nil hw hs.spelled)
  rw [hvc] at hmu
  obtain ⟨rfl, -⟩ := List.cons.inj hmu
  cases hd
  rw [hc] at hl
  cases hl

theorem absentIn_space (hw : isPhrase w = true) (y : Text) :
    AbsentIn w [' '] y :=
  absentIn_char hw rfl y

/-- A space before a clear text. -/
theorem Clear.space (hw : isPhrase w = true) (h : Clear w x) :
    Clear w (' ' :: x) :=
  ⟨by simpa [depthStep] using h.top, fun y hy =>
    (absentIn_space hw (x ++ y)).append (a := [' ']) rfl (h.absentIn y hy)⟩

theorem Clear.of_space (hw : isPhrase w = true) (h : Clear w (' ' :: x)) :
    Clear w x :=
  ⟨by simpa [depthStep] using h.top, fun y hy =>
    AbsentIn.right (a := [' ']) hw (h.absentIn y hy) rfl (.inl rfl)⟩

/-- A word does not stand in a text of letters that is another word, when a
space follows. -/
theorem absentIn_letters (hw : isPhrase w = true) {m : Text}
    (hm : ∀ c ∈ m, c.toLower.isLower = true)
    (h : ¬ (m.lower ++ [' ']) <+: w ++ [' ']) (z : Text) :
    AbsentIn w m (' ' :: z) := by
  rintro a v n u rfl hv hnu hs
  -- the word starts with the text, since no letter is an edge
  have ha : a = [] := by
    by_contra h₀
    obtain ⟨c, hc⟩ := Option.isSome_iff_exists.1 (List.getLast?_isSome.2 h₀)
    have hl := hs.left
    rw [hc, atEdge, ← isEdge_toLower, isEdge_of_isLower
      (hm c (List.mem_append_left _ (List.mem_of_getLast? hc)))] at hl
    cases hl
  subst ha
  rw [List.nil_append] at hm h
  have hspell : n.lower = w := hs.spelled.trans (lower_of_isPhrase hw)
  rcases List.append_eq_append_iff.1 hnu with ⟨e, rfl, he⟩ | ⟨e, rfl, he⟩
  · -- the text ends inside the word
    refine h ?_
    rw [← hspell]
    cases e with
    | nil => simp [Text.lower]
    | cons d e =>
      obtain ⟨rfl, -⟩ := List.cons.inj he
      refine ⟨Text.lower e ++ [' '], ?_⟩
      simp [Text.lower]
  · -- the word ends inside the text
    have hr := hs.right
    cases e with
    | nil =>
      rw [List.append_nil] at h
      exact h ⟨[], by rw [hspell, List.append_nil]⟩
    | cons d e =>
      have hd := hm d (by simp)
      rw [he, List.cons_append, List.head?_cons, atEdge, ← isEdge_toLower,
        isEdge_of_isLower hd] at hr
      cases hr

/-- A word does not stand in another keyword, when a space follows. -/
theorem absentIn_keyword (hw : isPhrase w = true)
    (hword : ∀ c ∈ word, c.isLower = true)
    (h : ¬ (word ++ [' ']) <+: w ++ [' ']) (z : Text) :
    AbsentIn w (o.keyword word) (' ' :: z) := by
  have hlower : Text.lower word = word := (List.map_congr_left fun c hc =>
    toLower_of_isLower (hword c hc)).trans (List.map_id word)
  refine absentIn_letters hw (fun c hc => ?_) ?_ z
  · have hc' : c.toLower ∈ Text.lower (o.keyword word) := List.mem_map_of_mem hc
    rw [lower_keyword, hlower] at hc'
    exact hword _ hc'
  · rwa [lower_keyword, hlower]

theorem depthStep_keyword (o : Options) (hword : ∀ c ∈ word, c.isLower = true) :
    ∀ c ∈ o.keyword word, depthStep c = 0 := by
  refine forall_mem_of_lower_eq
    (fun c => by rw [depthStep_toLower]) (lower_keyword o word) ?_
  intro c hc
  have := isEdge_of_isLower (hword c hc)
  simp only [isEdge, Bool.or_eq_false_iff] at this
  simp [depthStep, this]

theorem balanced_keyword (o : Options) (hword : ∀ c ∈ word, c.isLower = true) :
    isBalanced (o.keyword word) = true :=
  isBalanced_of_forall (depthStep_keyword o hword)

theorem depth_keyword (o : Options) (hword : ∀ c ∈ word, c.isLower = true) :
    depth (o.keyword word) = 0 :=
  depth_of_isBalanced (balanced_keyword o hword)

/-- A keyword with a text behind it. -/
theorem Clear.keyword (hw : isPhrase w = true)
    (hword : ∀ c ∈ word, c.isLower = true)
    (h : ¬ (word ++ [' ']) <+: w ++ [' ']) (hx : Clear w x) :
    Clear w (o.keyword word ++ ' ' :: x) := by
  refine ⟨by simp [depth_keyword o hword, hx.top, depthStep], fun y hy => ?_⟩
  rw [List.append_cons]
  refine AbsentIn.append ?_ ?_ (hx.absentIn y hy)
  · refine AbsentIn.append ?_ (depth_keyword o hword) (absentIn_space hw _)
    exact absentIn_keyword hw hword h (x ++ y)
  · simp [depth_keyword o hword, depthStep]

theorem Clear.led (hw : isPhrase w = true)
    (hword : ∀ c ∈ word, c.isLower = true)
    (h : ¬ (word ++ [' ']) <+: w ++ [' ']) (hx : Clear w x) :
    Clear w (' ' :: (o.keyword word ++ ' ' :: x)) :=
  Clear.space hw (hx.keyword hw hword h)

/-! ## Lists -/

theorem absentIn_comma (hw : isPhrase w = true) (h : Absent w p) (y : Text) :
    AbsentIn w p (',' :: y) :=
  h.absentIn (parts_of_head hw (by simp))

/-- The entries of a list. -/
theorem clear_list (hw : isPhrase w = true) :
    ∀ {entries : List Text}, (∀ e ∈ entries, depth e = 0) →
      (∀ e ∈ entries, Absent w e) → Clear w (rowText entries)
  | [], _, _ => clear_nil w
  | [e], hd, h => clear_piece hw (hd e (by simp)) (h e (by simp))
  | e :: e' :: more, hd, h => by
    have ih : Clear w (rowText (e' :: more)) :=
      clear_list hw (fun x hx => hd x (List.mem_cons_of_mem _ hx))
        fun x hx => h x (List.mem_cons_of_mem _ hx)
    have hrow : rowText (e :: e' :: more) =
        e ++ ([','] ++ ' ' :: rowText (e' :: more)) := by
      simp [rowText, Text.join]
    have htop := hd e (by simp)
    rw [hrow]
    refine ⟨by simp [htop, ih.top, depthStep], fun y hy => ?_⟩
    refine AbsentIn.append (absentIn_comma hw (h e (by simp)) _) htop ?_
    exact (absentIn_char hw rfl _).append rfl ((ih.space hw).absentIn y hy)

/-! ## Aliases -/

/-- A phrase whose last word is reserved, so that no alias completes it. -/
structure Keyed (w : Text) : Prop where
  phrase : isPhrase w = true
  reserved : isReserved (afterLast ' ' w) = true
  once : w.count ' ' ≤ 1

instance (w : Text) : Decidable (Keyed w) :=
  decidable_of_iff (isPhrase w = true ∧ isReserved (afterLast ' ' w) = true ∧
    w.count ' ' ≤ 1) ⟨fun h => ⟨h.1, h.2.1, h.2.2⟩,
    fun h => ⟨h.phrase, h.reserved, h.once⟩⟩

theorem keyed_phrase (clause : Clause) : Keyed clause.phrase := by
  cases clause <;> decide

/-- The last word of a keyed phrase is reserved and one word. -/
theorem Keyed.behind {u v : Text} (h : Keyed (u ++ ' ' :: v)) :
    isReserved v = true ∧ ' ' ∉ v := by
  have hv : ' ' ∉ v := by
    have := h.once
    rw [List.count_append, List.count_cons_self] at this
    exact List.count_eq_zero.1 (by omega)
  have hr := h.reserved
  rw [afterLast_append hv] at hr
  exact ⟨hr, hv⟩

theorem isReserved_of_lower_eq {x y : Text} (h : x.lower = y.lower) :
    isReserved x = isReserved y := by
  rw [isReserved, isReserved, Keyword.ofWord?, Keyword.ofWord?, h]

theorem isEdge_of_isAliasChar {c : Char} (h : isAliasChar c = true) :
    isEdge c = false := by
  rw [Bool.eq_false_iff]
  intro he
  simp only [isEdge, isSpace, Bool.or_eq_true, beq_iff_eq] at he
  rcases he with (((((rfl | rfl) | rfl) | rfl) | rfl) | rfl) | rfl <;> cases h

section Alias

variable {n : Text} (hn : isAlias n = true)
include hn

theorem ne_nil_of_isAlias : n ≠ [] := by
  rintro rfl
  cases hn

theorem isAliasChar_of_isAlias : ∀ c ∈ n, isAliasChar c = true := by
  cases n with
  | nil => cases hn
  | cons d n =>
    simp only [isAlias, Bool.and_eq_true, List.all_eq_true] at hn
    exact hn.1.2

theorem isReserved_of_isAlias : isReserved n = false := by
  cases n with
  | nil => cases hn
  | cons d n =>
    simp only [isAlias, Bool.and_eq_true, Bool.not_eq_true'] at hn
    exact hn.2

theorem isEdge_of_isAlias : ∀ c ∈ n, isEdge c = false :=
  fun c hc => isEdge_of_isAliasChar (isAliasChar_of_isAlias hn c hc)

theorem depth_of_isAlias : depth n = 0 := by
  refine depth_eq_zero fun c hc => ?_
  have := isEdge_of_isAlias hn c hc
  simp only [isEdge, Bool.or_eq_false_iff] at this
  simp [depthStep, this]

theorem space_not_mem_alias : ' ' ∉ n := fun hm => by
  have := isEdge_of_isAlias hn _ hm
  cases this

/-- No keyword stands in an alias. -/
theorem absent_alias (hw : Keyed w) : Absent w n := by
  rintro a m c rfl hs
  have hedge := isEdge_of_isAlias hn
  have ha : a = [] := by
    by_contra h₀
    obtain ⟨d, hd⟩ := Option.isSome_iff_exists.1 (List.getLast?_isSome.2 h₀)
    have hl := hs.left
    rw [hd, atEdge, hedge d (by simp [List.mem_of_getLast? hd])] at hl
    cases hl
  have hc : c = [] := by
    cases c with
    | nil => rfl
    | cons d c =>
      have hr := hs.right
      rw [List.head?_cons, atEdge, hedge d (by simp)] at hr
      cases hr
  subst ha hc
  rw [List.nil_append, List.append_nil] at hn
  by_cases hsp : ' ' ∈ w
  · have hm : ' ' ∈ Text.lower m := by
      rw [hs.spelled, lower_of_isPhrase hw.phrase]
      exact hsp
    obtain ⟨d, hd, he⟩ := List.mem_map.1 hm
    obtain rfl := (toLower_eq_iff rfl).1 he
    exact space_not_mem_alias hn hd
  · have hr := hw.reserved
    rw [afterLast_of_not_mem hsp, ← isReserved_of_lower_eq hs.spelled,
      isReserved_of_isAlias hn] at hr
    cases hr

/-- An alias behind a space completes no keyword. -/
theorem parts_alias (hw : Keyed w) (hy : atEdge y.head? = true) :
    Parts w (' ' :: (n ++ y)) := by
  rintro u v m c rfl - hv hmc hm
  rw [Bool.eq_false_iff]
  intro hc
  cases m with
  | nil =>
    have := Text.length_eq_of_lower_eq hm
    exact hv (List.length_eq_zero_iff.1 this.symm)
  | cons d m =>
    obtain ⟨rfl, hrest⟩ := List.cons.inj hmc
    have hrest : n ++ y = m ++ c := hrest
    cases v with
    | nil => exact hv rfl
    | cons e v =>
      obtain ⟨he, hmv⟩ : ' '.toLower = e.toLower ∧
          Text.lower m = Text.lower v :=
        List.cons.inj hm
      obtain rfl : e = ' ' := (toLower_eq_iff rfl).1 he.symm
      obtain ⟨hres, hsp⟩ := hw.behind
      -- the rest of the word is the alias
      have hmn : m = n := by
        rcases List.append_eq_append_iff.1 hrest with
          ⟨z, rfl, hz⟩ | ⟨z, rfl, hz⟩
        · cases z with
          | nil => simp
          | cons f z =>
            -- no letter of the word is an edge
            rw [hz, List.cons_append, List.head?_cons, atEdge, ← isEdge_toLower]
              at hy
            have hf : f.toLower ∈ Text.lower v := by
              rw [← hmv]
              exact List.mem_map_of_mem (by simp)
            obtain ⟨g, hg, hgf⟩ := List.mem_map.1 hf
            rcases mem_of_isPhrase hw.phrase g (by simp [hg]) with hl | rfl
            · rw [← hgf, toLower_of_isLower hl, isEdge_of_isLower hl] at hy
              cases hy
            · exact absurd hg hsp
        · cases z with
          | nil => simp
          | cons f z =>
            rw [hz, List.cons_append, List.head?_cons, atEdge,
              isEdge_of_isAlias hn f (by simp)] at hc
            cases hc
      rw [← isReserved_of_lower_eq hmv, hmn, isReserved_of_isAlias hn] at hres
      cases hres

end Alias

/-! ## Sources -/

/-- Nothing stands in a text in brackets, whatever follows. -/
theorem absentIn_brackets (hw : isPhrase w = true) (hx : isBalanced x = true)
    (y : Text) : AbsentIn w ('(' :: (x ++ [')'])) y := by
  intro a v m c hav hv hmc hs
  cases a with
  | nil =>
    obtain ⟨d, hd, hl⟩ := head?_spelling hw hs.spelled
    obtain ⟨e, m, rfl⟩ :=
      List.exists_cons_of_ne_nil (spelling_ne_nil hw hs.spelled)
    rw [List.nil_append] at hav
    rw [← hav] at hmc
    obtain ⟨rfl, -⟩ := List.cons.inj hmc
    cases hd
    cases hl
  | cons d a =>
    obtain ⟨rfl, hrest⟩ := List.cons.inj hav
    -- inside the brackets the depth is positive
    have ha : ∃ z, x = a ++ z := by
      rcases List.append_eq_append_iff.1 hrest with ⟨z, hz, hv'⟩ | ⟨z, rfl, -⟩
      · cases z with
        | nil => exact ⟨[], by simpa using hz.symm⟩
        | cons e z =>
          obtain ⟨-, h⟩ := List.cons.inj hv'
          exact absurd (List.append_eq_nil_iff.1 h.symm).2 hv
      · exact ⟨z, rfl⟩
    obtain ⟨z, rfl⟩ := ha
    have h₀ := (isBalanced_iff.1 hx).2 a z rfl
    have h₁ := hs.top
    rw [depth_cons] at h₁
    have : depthStep '(' = 1 := rfl
    omega

theorem clear_brackets (hw : isPhrase w = true) (hx : isBalanced x = true) :
    Clear w ('(' :: (x ++ [')'])) := by
  refine ⟨?_, fun y _ => absentIn_brackets hw hx y⟩
  simp [depth_of_isBalanced hx, depthStep]

/-- A source with its alias. -/
theorem clear_aliased (hw : Keyed w) (hd : depth x = 0)
    (hx : ∀ y, Parts w y → AbsentIn w x y)
    {aliasName : Option Text} (hn : ∀ n ∈ aliasName, isAlias n = true) :
    Clear w (x ++ aliasText aliasName) := by
  cases aliasName with
  | none =>
    rw [aliasText, List.append_nil]
    exact ⟨hd, fun y hy => hx y (hy.parts hw.phrase)⟩
  | some n =>
    have hn := hn n rfl
    have hclear :=
      clear_piece hw.phrase (depth_of_isAlias hn) (absent_alias hn hw)
    refine ⟨by simp [aliasText, hd, depth_of_isAlias hn, depthStep],
      fun y hy => ?_⟩
    refine AbsentIn.append (hx _ ?_) hd ((hclear.space hw.phrase).absentIn y hy)
    exact parts_alias hn hw hy.atEdge

end SqlRiver
