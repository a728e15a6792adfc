import SqlRiver.Proofs.Spread.Search
import SqlRiver.Proofs.Reading.Sound

/-!
# Why texts are refused

Two branches of the readers are there for texts that never reach them. A bracket
without a partner is refused before anything is read, so a source that opens
with a bracket always finds the partner. And a text is handed to the readers of
clauses because its first word is `select`: the clauses that are taken off its
end leave that word in place. Both facts hold at every level, since a query in
brackets is balanced again.

A result is *spared* if it is no error of these branches. Each reader is spared
on an orderly text, given that the reader of the queries in brackets is.

Main definitions and statements:

* `Spared`: a result that is no error of a dead branch.
* `exists_unwrap?`: the bracket that opens a balanced text has a partner.
* `Selects`, `Led.before`, `selects_of_firstWord`: the word `select` stays at
  the start of a query.
* `spared_readClauses`, `spared_readQuery`: what readers do not answer.
* `malformed_brackets`: brackets are reported exactly where they are not
  balanced.
-/

namespace SqlRiver

open Text

/-! ## Results -/

/-- Is this the error of a branch that a balanced text does not reach? -/
def ParseError.isDead : ParseError → Bool
  | .unbalanced => true
  | .noSelect => true
  | _ => false

/-- The result is no error of a branch that is not reached. -/
def Spared {α : Type} (x : Except ParseError α) : Prop :=
  ∀ e, x = .error e → e.isDead = false

section Result

variable {α β : Type}

theorem spared_ok (v : α) : Spared (.ok v : Except ParseError α) := by
  rintro e ⟨⟩

theorem spared_error {e : ParseError} (h : e.isDead = false) :
    Spared (.error e : Except ParseError α) := by
  rintro _ ⟨⟩
  exact h

/-- One step behind another, which may rely on what the first step has read. -/
theorem Spared.bind {x : Except ParseError α} {k : α → Except ParseError β}
    (hx : Spared x) (hk : ∀ v, x = .ok v → Spared (k v)) :
    Spared (x >>= k) := by
  cases x with
  | error e => exact spared_error (hx e rfl)
  | ok v => exact hk v rfl

end Result

variable {t rest : Text} {clause : Clause} {nested : Nested}
  {literals : LiteralTable}

/-! ## Readers that never fail so -/

/-- No list is refused for its brackets or for want of `select`. -/
theorem spared_commaList (clause : Clause) (body : Text) :
    Spared (commaList clause body) := by
  simp only [commaList]
  split
  · exact spared_error rfl
  · split
    · exact spared_error rfl
    · exact spared_ok _

/-- No conditions are refused for their brackets or for want of `select`. -/
theorem spared_conditions (clause : Clause) (body : Text) :
    Spared (conditions clause body) := by
  simp only [conditions]
  split
  · exact spared_error rfl
  · split
    · exact spared_error rfl
    · exact spared_ok _

/-- No clause at the end is refused for its brackets or for want of `select`. -/
theorem spared_readTrailing (clause : Clause) (t : Text) :
    Spared (readTrailing clause t) := by
  simp only [readTrailing]
  split
  · exact spared_ok _
  · split
    · exact spared_error rfl
    · exact spared_ok _

theorem spared_readOrderBy (t : Text) : Spared (readOrderBy t) := by
  simp only [readOrderBy]
  split
  · exact spared_ok _
  · exact (spared_commaList _ _).bind fun _ _ => spared_ok _

theorem spared_readGroupBy (t : Text) : Spared (readGroupBy t) := by
  simp only [readGroupBy]
  split
  · exact spared_ok _
  · exact (spared_commaList _ _).bind fun _ _ => spared_ok _

theorem spared_readFilter (t : Text) : Spared (readFilter t) := by
  simp only [readFilter]
  split
  · exact spared_ok _
  · exact (spared_conditions _ _).bind fun _ _ => spared_ok _

theorem spared_readHaving (grouped : Bool) (t : Text) :
    Spared (readHaving grouped t) := by
  simp only [readHaving]
  split
  · exact spared_ok _
  · split
    · exact (spared_conditions _ _).bind fun _ _ => spared_ok _
    · exact spared_error rfl

/-- An alias is refused for its own sake only. -/
theorem spared_sourceAlias (literals : LiteralTable) (region : Text) :
    Spared (sourceAlias literals region) := by
  simp only [sourceAlias]
  split
  · exact spared_ok _
  · split
    · exact spared_ok _
    · exact spared_error rfl

theorem spared_joinKind (modifiers : Text) : Spared (joinKind modifiers) := by
  simp only [joinKind]
  split
  · exact spared_ok _
  · exact spared_error rfl

theorem spared_usingList (columns : Text) : Spared (usingList columns) := by
  simp only [usingList]
  split
  · exact spared_commaList _ _
  · exact spared_error rfl

theorem spared_finish (literals : LiteralTable) (t : Text) :
    Spared (finish literals t) := by
  simp only [finish]
  split
  · exact spared_ok _
  · exact spared_error rfl

/-- A quoted span or a comment is refused for want of its end only. -/
theorem spared_next (offset : Nat) (c : Char) (rest : Text) :
    Spared (Segment.next offset c rest) := by
  unfold Segment.next
  split
  · split
    · exact spared_ok _
    · exact spared_error rfl
  · split
    · exact spared_ok _
    · split
      · split
        · exact spared_ok _
        · exact spared_error rfl
      · exact spared_ok _

theorem spared_segmentsFrom :
    ∀ (inside offset : Nat) (t : Text), Spared (segmentsFrom inside offset t)
  | _, _, [] => spared_ok _
  | inside + 1, offset, c :: rest =>
    spared_segmentsFrom inside (offset + c.utf8Size) rest
  | 0, offset, c :: rest => by
    rw [segmentsFrom]
    split
    · next e he => exact spared_error (spared_next offset c rest e he)
    · next segment _ =>
      split
      · next e he => exact spared_error (spared_segmentsFrom _ _ _ e he)
      · exact spared_ok _

/-- Masking a text refuses unclosed spans and comments only. -/
theorem spared_protect (t : Text) : Spared (protect t) := by
  unfold protect
  split
  · next e he => exact spared_error (spared_segmentsFrom 0 0 t e he)
  · exact spared_ok _

/-! ## The word `select` -/

/-- A word at the start stays there when a keyword and all behind it are cut
off. -/
theorem Led.before {v w a m c : Text} (hv : ∀ d ∈ v, d.isLower = true)
    (hv₀ : v ≠ []) (hw : isPhrase w = true) (hne : v.head? ≠ w.head?)
    (h : Led v (a ++ m ++ c)) (hs : Stands w a m c) : Led v a := by
  obtain ⟨n, d, e, hn⟩ := h
  rw [List.append_assoc] at e
  have hlower : lower v = v := (List.map_congr_left fun d hd =>
    toLower_of_isLower (hv d hd)).trans v.map_id
  rcases List.append_eq_append_iff.1 e with ⟨z, rfl, -⟩ | ⟨z, rfl, rfl⟩
  · by_cases ha : a = []
    · -- both would start with the same letter
      subst ha
      obtain ⟨f, m, rfl⟩ :=
        List.exists_cons_of_ne_nil (spelling_ne_nil hw hs.spelled)
      have hz : lower z = v := by
        rw [← hlower]
        exact hn.spelled
      refine absurd ?_ hne
      cases z with
      | nil => exact absurd hz.symm hv₀
      | cons g z =>
        obtain rfl : f = g := (List.cons.inj e).1
        rw [← hz, ← lower_of_isPhrase hw, ← hs.spelled]
        rfl
    · -- the keyword would start inside the word, next to one of its letters
      obtain ⟨x, f, rfl⟩ := List.eq_nil_or_concat a |>.resolve_left ha
      have hmem : f.toLower ∈ v := by
        rw [← hlower, ← hn.spelled]
        exact List.mem_map_of_mem (by simp)
      have hleft := hs.left
      rw [List.concat_eq_append, List.getLast?_concat, atEdge, ← isEdge_toLower,
        isEdge_of_isLower (hv _ hmem)] at hleft
      cases hleft
  · refine ⟨n, z, rfl, hn.spelled, rfl, rfl, ?_⟩
    cases z with
    | nil => rfl
    | cons f z => exact hn.right

/-- A text that starts with a word still does when it is trimmed. -/
theorem Led.trim {v : Text} (hv : isPhrase v = true) (h : Led v t) :
    Led v t.trim := by
  obtain ⟨n, d, rfl, hn⟩ := h
  obtain ⟨f, hf, hlow⟩ := head?_spelling hv hn.spelled
  obtain ⟨g, hg, hlow'⟩ := getLast?_spelling hv hn.spelled
  have hblank {c : Char} (hc : c.toLower.isLower = true) :
      isBlank c = false := by
    rw [← isBlank_toLower]
    exact isBlank_of_isLower hc
  -- nothing is trimmed off the word itself
  have hstart : trimStart (n ++ d) = n ++ d := by
    refine trimStart_pad (l := []) (x := n ++ d) blank_nil fun c hc => ?_
    rw [List.head?_append, hf] at hc
    cases hc
    exact hblank hlow
  obtain ⟨r, hr, e, hlast⟩ := exists_trimEnd d
  have htrim : Text.trim (n ++ d) = n ++ trimEnd d := by
    rw [Text.trim, hstart]
    conv => lhs; rw [e, ← List.append_assoc]
    refine trimEnd_pad hr fun c hc => ?_
    rw [List.getLast?_append, hg] at hc
    cases hd : (trimEnd d).getLast? with
    | none =>
      rw [hd] at hc
      cases hc
      exact hblank hlow'
    | some c' =>
      rw [hd] at hc
      cases hc
      exact hlast c hd
  rw [htrim]
  refine ⟨n, trimEnd d, rfl, hn.spelled, rfl, rfl, ?_⟩
  cases hd : trimEnd d with
  | nil => rfl
  | cons c u =>
    have hright := hn.right
    rw [e, hd] at hright
    exact hright

/-- The text starts with the word `select`. -/
def Selects (t : Text) : Prop := Led Clause.select.phrase t

/-- What stands before a word that is not `select` still starts with
`select`. -/
theorem Selects.before {w a m c : Text} (hw : isPhrase w = true)
    (hne : w.head? ≠ some 's')
    (h : Selects (a ++ m ++ c)) (hs : Stands w a m c) : Selects a.trim := by
  have hne' : Clause.select.phrase.head? ≠ w.head? := fun e => hne e.symm
  exact (Led.before (by decide) (by decide) hw hne' h hs).trim
    (isPhrase_phrase .select)

/-- A clause that is taken off the end leaves `select` at the start. -/
theorem selects_readTrailing {v : Option Text}
    (hne : clause.phrase.head? ≠ some 's') (hsel : Selects t)
    (h : readTrailing clause t = .ok (v, rest)) : Selects rest := by
  rcases readTrailing_eq_ok_iff.1 h with
    ⟨-, -, rfl⟩ | ⟨a, m, c, rfl, hs, -, -, -, rfl⟩
  · exact hsel
  · exact hsel.before (isPhrase_phrase clause) hne hs

theorem selects_readOrderBy {entries : List Text} (hsel : Selects t)
    (h : readOrderBy t = .ok (entries, rest)) : Selects rest := by
  rcases readOrderBy_eq_ok_iff.1 h with
    ⟨-, -, rfl⟩ | ⟨a, m, c, rfl, hs, -, -, rfl⟩
  · exact hsel
  · exact hsel.before (isPhrase_phrase .orderBy) (by decide) hs

/-- The first word of a query ends at a blank or a bracket, and both are edges
of a whole word. -/
theorem selects_of_firstWord (ho : Orderly t) {k : Keyword}
    (hk : Keyword.ofWord? (firstWord t) = some k)
    (hsel : k.text = Clause.select.phrase) : Selects t := by
  have hlower : k.text = lower (firstWord t) := by
    simpa using List.find?_some hk
  have hsplit :
      firstWord t ++ t.dropWhile (fun c => !(isBlank c || c == '(')) = t :=
    List.takeWhile_append_dropWhile
  refine ⟨_, _, hsplit.symm, ?_, rfl, rfl, ?_⟩
  · rw [← hlower, hsel]
    rfl
  · have hstop := List.head?_dropWhile_not (fun c => !(isBlank c || c == '(')) t
    cases hd : t.dropWhile (fun c => !(isBlank c || c == '(')) with
    | nil => rfl
    | cons c u =>
      rw [hd] at hstop hsplit
      have hc : isBlank c = true ∨ c = '(' := by
        simpa [Decidable.or_iff_not_imp_left] using hstop
      rcases hc with hc | rfl
      · obtain rfl : c = ' ' := ho.thin.spaceOnly c (by rw [← hsplit]; simp) hc
        rfl
      · rfl

/-- A text that starts with `select` is not refused for want of it. -/
theorem spared_readSelect (hsel : Selects t) :
    Spared (readSelect literals t) := by
  obtain ⟨m, c, rfl, hs⟩ := hsel
  simp only [readSelect, stripWord?_eq_some_iff.2 ⟨m, rfl, hs⟩]
  split
  · exact spared_error rfl
  · split
    · exact spared_error rfl
    · exact (spared_commaList _ _).bind fun _ _ => spared_ok _

/-! ## Brackets -/

/-- The bracket that opens a balanced text is closed in it. -/
theorem exists_unwrap? (hb : isBalanced t = true) (hopen : t.head? = some '(') :
    ∃ inside tail, unwrap? t = some (inside, tail) := by
  obtain ⟨t, rfl⟩ := List.head?_eq_some_iff.1 hopen
  have hd : depthStep '(' + depth t = 0 := depth_of_isBalanced hb
  have hopened : depthStep '(' = 1 := rfl
  obtain ⟨pos, hpos⟩ := exists_closeFrom (n := 0) (t := t) (by omega)
  exact ⟨t.take pos, t.drop (pos + 1), by rw [unwrap?, hpos]; rfl⟩

/-! ## Sources and joins -/

section Nested

variable (hnested : ∀ t, Orderly t → Spared (nested t))
include hnested

/-- In an orderly text the bracket of a source is closed. -/
theorem spared_readBare (ho : Orderly t) :
    Spared (readBare nested clause t) := by
  simp only [readBare]
  split
  · exact spared_error rfl
  · split
    · next hopen =>
      obtain ⟨inside, tail, hu⟩ :=
        exists_unwrap? ho.balanced (by simpa using hopen)
      obtain ⟨rfl, hi⟩ := unwrap?_eq_some_iff.1 hu
      simp only [hu]
      exact (hnested _ (ho.brackets hi).1.trim).bind fun _ _ => spared_ok _
    · split
      · exact spared_error rfl
      · exact spared_ok _

theorem spared_readSource {ends : List Text} (ho : Orderly t) :
    Spared (readSource nested literals ends clause t) := by
  refine (spared_readBare hnested ho).bind fun _ _ => ?_
  exact (spared_sourceAlias _ _).bind fun _ _ => spared_ok _

/-- The sources behind a comma of an orderly text are not refused for their
brackets. -/
theorem spared_readMore : ∀ {bound : Nat} {t : Text}, Orderly t →
    Spared (readMore nested literals bound t)
  | 0, _, _ => spared_ok _
  | bound + 1, t, ho => by
    rw [readMore]
    split
    · exact spared_ok _
    · next behind hb =>
      obtain ⟨c, rfl, rfl⟩ := stripComma?_eq_some_iff.1 hb
      have hoc := (Orderly.append (a := [',']) ho rfl).2.trim
      refine (spared_readSource hnested hoc).bind fun _ hs => ?_
      have hrest :=
        (drawn_readSource isPhrase_of_mem_sourceEnds hoc (trimmed_trim c) hs).2
      exact (spared_readMore hrest).bind fun _ _ => spared_ok _

/-- The sources of an orderly text are not refused for their brackets. -/
theorem spared_readSources (ho : Orderly t) (htrim : t.Trimmed) :
    Spared (readSources nested literals t) := by
  refine (spared_readSource hnested ho).bind fun _ hs => ?_
  have hrest := (drawn_readSource isPhrase_of_mem_sourceEnds ho htrim hs).2
  exact (spared_readMore hnested hrest).bind fun _ _ => spared_ok _

/-- A join in an orderly text is not refused for its brackets. -/
theorem spared_readJoin {kind : JoinKind} {body : Text} (ho : Orderly body) :
    Spared (readJoin nested literals kind body) := by
  refine (spared_readSource hnested ho.trim).bind ?_
  rintro ⟨source, rest⟩ -
  simp only
  split
  · exact spared_ok _
  · split
    · split
      · exact spared_error rfl
      · exact spared_ok _
    · split
      · exact (spared_usingList _).bind fun _ _ => spared_ok _
      · exact spared_error rfl

/-- Joins of orderly pieces are not refused for their brackets. -/
theorem spared_joinsOf :
    ∀ {pieces : List Text} {modifiers : Text}, (∀ p ∈ pieces, Orderly p) →
      Spared (joinsOf nested literals modifiers pieces)
  | [], _, _ => spared_ok _
  | [piece], modifiers, ho => by
    refine (spared_joinKind modifiers).bind fun _ _ => ?_
    exact (spared_readJoin hnested (ho piece (by simp))).bind fun _ _ =>
      spared_ok _
  | piece :: piece' :: more, modifiers, ho => by
    refine (spared_joinKind modifiers).bind fun _ _ => ?_
    refine (spared_readJoin hnested
      (orderly_trailingModifiers (ho piece (by simp)))).bind fun _ _ => ?_
    exact (spared_joinsOf fun p hp => ho p (List.mem_cons_of_mem _ hp)).bind
      fun _ _ => spared_ok _

theorem spared_readJoins (ho : Orderly t) :
    Spared (readJoins nested literals t) := by
  obtain ⟨region, tail, hcut⟩ : ∃ region tail,
      cutBefore joinEnds t = (region, tail) :=
    ⟨_, _, rfl⟩
  obtain ⟨rfl, hu⟩ := (cutBefore_eq_iff isPhrase_of_mem_joinEnds).1 hcut
  have hpieces := orderly_pieces (isPhrase_phrase .join) (ho.upTo hu).1
  simp only [readJoins, hcut]
  split
  · exact spared_ok _
  · split
    · next modifiers piece more hp =>
      rw [hp] at hpieces
      refine (spared_joinsOf hnested fun p hmem => ?_).bind fun _ _ =>
        spared_ok _
      exact hpieces p (List.mem_cons_of_mem _ hmem)
    · exact spared_error rfl

/-! ## Queries -/

/-- The clauses of an orderly text that starts with `select` reach no branch for
brackets or for want of `select`. -/
theorem spared_readClauses {level : Nat} (ho : Orderly t) (hsel : Selects t) :
    Spared (readClauses nested literals level t) := by
  refine (spared_readTrailing .limit t).bind ?_
  rintro ⟨limit, t₁⟩ h₁
  have ho₁ := (sound_readTrailing ho h₁).2
  have hsel₁ := selects_readTrailing (by decide) hsel h₁
  refine (spared_readTrailing .offset t₁).bind ?_
  rintro ⟨offset, t₂⟩ h₂
  have ho₂ := (sound_readTrailing ho₁ h₂).2
  have hsel₂ := selects_readTrailing (by decide) hsel₁ h₂
  refine (spared_readOrderBy t₂).bind ?_
  rintro ⟨orderBy, t₃⟩ h₃
  have ho₃ := (sound_readOrderBy ho₂ h₃).2
  refine (spared_readSelect (selects_readOrderBy hsel₂ h₃)).bind ?_
  rintro ⟨⟨distinct, columns⟩, t₄⟩ h₄
  have ho₄ := (sound_readSelect ho₃ h₄).2
  have htrim := trimmed_readSelect h₄
  refine (spared_readSources hnested ho₄ htrim).bind ?_
  rintro ⟨⟨source, listed⟩, t₅⟩ h₅
  have ho₅ := (drawn_readSources ho₄ htrim h₅).2.2
  refine (spared_readJoins hnested ho₅).bind fun _ _ => ?_
  refine (spared_readFilter _).bind fun _ _ => ?_
  refine (spared_readGroupBy _).bind fun _ _ => ?_
  refine (spared_readHaving _ _).bind fun _ _ => ?_
  exact (spared_finish _ _).bind fun _ _ => spared_ok _

/-- A statement reaches its clauses only if it starts with `select`. -/
theorem spared_readStatement {level : Nat} (ho : Orderly t) :
    Spared (readStatement nested literals level t) := by
  simp only [readStatement]
  split
  · exact spared_error rfl
  · split
    · next k hk =>
      split
      · next hsel =>
          exact spared_readClauses hnested ho
            (selects_of_firstWord ho hk (by simpa using hsel))
      · split <;> exact spared_error rfl
    · exact spared_error rfl

end Nested

/-- Orderly texts reach neither branch at any level. -/
theorem spared_readQuery :
    ∀ {room : Nat} {t : Text}, Orderly t → Spared (readQuery literals room t)
  | 0, _, ho => spared_readStatement (fun _ _ => spared_error rfl) ho
  | _ + 1, _, ho => spared_readStatement (fun _ ho' => spared_readQuery ho') ho

/-- A masked text that is not blank is refused for its brackets if and only if
they are not balanced. -/
theorem readMasked_eq_unbalanced_iff {masked : Text}
    (h₀ : masked.normalize ≠ []) :
    readMasked literals masked = .error .unbalanced ↔
    isBalanced masked.normalize = false := by
  have h₀' : List.isEmpty masked.normalize = false := by simpa using h₀
  by_cases hb : isBalanced masked.normalize = true
  · have ho : Orderly masked.normalize := ⟨thin_normalize masked, hb⟩
    simp only [readMasked, h₀', hb]
    constructor
    · intro h
      cases spared_readQuery ho.trim _ h
    · rintro ⟨⟩
  · simp [readMasked, h₀', hb]

/-- No masked text is refused for want of `select`. -/
theorem readMasked_ne_noSelect (masked : Text) :
    readMasked literals masked ≠ .error .noSelect := by
  simp only [readMasked]
  split
  · rintro ⟨⟩
  · split
    · rintro ⟨⟩
    · next hb =>
      have ho : Orderly masked.normalize :=
        ⟨thin_normalize masked, by simpa using hb⟩
      intro h
      cases spared_readQuery ho.trim _ h

/-! ## Reasons -/

/-- The reasons that the dead branches give. -/
def deadReasons : List Text :=
  ["unbalanced parentheses".toList, "expected SELECT".toList]

/-- Ten characters tell a reason apart from those of the dead branches, however
it goes on. -/
theorem not_mem_deadReasons {a r : Text} (hr : a <+: r)
    (h : 10 ≤ a.length ∧ ∀ dead ∈ deadReasons, a.take 10 ≠ dead.take 10) :
    r ∉ deadReasons := by
  intro hmem
  obtain ⟨b, rfl⟩ := hr
  refine h.2 _ hmem ?_
  rw [List.take_append_of_le_length h.1]

/-- A reason that starts with the name of a clause starts with a capital. -/
theorem label_append_not_mem_deadReasons (clause : Clause) (b : Text) :
    clause.label ++ b ∉ deadReasons := by
  have hdead : ∀ dead ∈ deadReasons, dead.head?.any Char.isUpper = false := by
    decide +kernel
  have hlabel : clause.label.head?.any Char.isUpper = true := by
    cases clause <;> decide
  intro hmem
  have hhead := hdead _ hmem
  cases hl : clause.label with
  | nil => simp [hl] at hlabel
  | cons c label =>
    rw [hl] at hlabel hhead
    exact absurd hlabel (by simpa using hhead)

/-- No other error of a malformed statement gives a reason of the dead
branches. -/
theorem isDead_of_reason {e : ParseError} (he : e.isUnsupported = false)
    (h : e.reason ∈ deadReasons) : e.isDead = true := by
  cases e with
  | unbalanced => rfl
  | noSelect => rfl
  | unsupported w => cases he
  | noExpression clause =>
    exact absurd h (label_append_not_mem_deadReasons clause _)
  | noList clause => exact absurd h (label_append_not_mem_deadReasons clause _)
  | noPredicate clause =>
    exact absurd h (label_append_not_mem_deadReasons clause _)
  | badAlias found =>
    have hr : "unexpected ".toList <+: (ParseError.badAlias found).reason :=
      (List.prefix_append _ _).trans (List.prefix_append _ _)
    exact absurd h (not_mem_deadReasons hr (by decide +kernel))
  | badJoin found =>
    have hr : "unexpected ".toList <+: (ParseError.badJoin found).reason :=
      (List.prefix_append _ _).trans (List.prefix_append _ _)
    exact absurd h (not_mem_deadReasons hr (by decide +kernel))
  | emptyEntry clause =>
    have hr :
        "empty entry in ".toList <+: (ParseError.emptyEntry clause).reason :=
      (List.prefix_append _ _).trans (List.prefix_append _ _)
    exact absurd h (not_mem_deadReasons hr (by decide +kernel))
  | openQuote n =>
    exact absurd h
      (not_mem_deadReasons (List.prefix_append _ _) (by decide +kernel))
  | openComment n =>
    exact absurd h
      (not_mem_deadReasons (List.prefix_append _ _) (by decide +kernel))
  | noTable clause =>
    exact absurd h
      (not_mem_deadReasons (List.prefix_append _ _) (by decide +kernel))
  | emptyPredicate clause =>
    exact absurd h
      (not_mem_deadReasons (List.prefix_append _ _) (by decide +kernel))
  | noJoin found =>
    exact absurd h
      (not_mem_deadReasons (List.prefix_append _ _) (by decide +kernel))
  | badModifier found =>
    exact absurd h
      (not_mem_deadReasons (List.prefix_append _ _) (by decide +kernel))
  | leftover found =>
    exact absurd h
      (not_mem_deadReasons (List.prefix_append _ _) (by decide +kernel))
  | _ => exact absurd h (by decide +kernel)

/-- The text is refused as a malformed statement, for this reason. -/
def Malformed (reason s : Text) : Prop :=
  ∃ e, parse s = .error e ∧ e.isUnsupported = false ∧ e.reason = reason

/-- The message for unbalanced brackets belongs to one error only. -/
theorem malformed_unbalanced_iff {s : Text} :
    Malformed "unbalanced parentheses".toList s ↔
    parse s = .error .unbalanced := by
  constructor
  · rintro ⟨e, h, he, hr⟩
    have hdead := isDead_of_reason he (by rw [hr]; simp [deadReasons])
    cases e with
    | unbalanced => exact h
    | noSelect => exact absurd hr (by decide +kernel)
    | _ => cases hdead
  · intro h
    exact ⟨_, h, rfl, rfl⟩

/-- The message for a missing `select` belongs to one error only. -/
theorem malformed_noSelect_iff {s : Text} :
    Malformed "expected SELECT".toList s ↔ parse s = .error .noSelect := by
  constructor
  · rintro ⟨e, h, he, hr⟩
    have hdead := isDead_of_reason he (by rw [hr]; simp [deadReasons])
    cases e with
    | noSelect => exact h
    | unbalanced => exact absurd hr (by decide +kernel)
    | _ => cases hdead
  · intro h
    exact ⟨_, h, rfl, rfl⟩

/-- A text whose quoted spans and comments are closed is refused for its
brackets if and only if they are not balanced, and no text is refused because
`select` is missing where it was found before. -/
theorem malformed_brackets (s : Text) :
    (∀ masked literals, protect s = .ok (masked, literals) →
      masked.normalize ≠ [] → (Malformed "unbalanced parentheses".toList s ↔
      isBalanced masked.normalize = false)) ∧
    ¬ Malformed "expected SELECT".toList s := by
  rw [malformed_unbalanced_iff, malformed_noSelect_iff]
  -- the last step of reading cannot fail
  have hread {masked : Text} {literals : LiteralTable} {e : ParseError}
      (hp : protect s = .ok (masked, literals)) :
      parse s = .error e ↔ readMasked literals masked = .error e := by
    rw [parse, hp]
    show (readMasked literals masked >>= _) = _ ↔ _
    cases readMasked literals masked with
    | error e' => rfl
    | ok q => simp [bind, Except.bind]
  constructor
  · intro masked literals hp h₀
    rw [hread hp, readMasked_eq_unbalanced_iff h₀]
  · cases hp : protect s with
    | error e =>
      intro h
      rw [parse, hp] at h
      cases h
      cases spared_protect s _ hp
    | ok cut =>
      obtain ⟨masked, literals⟩ := cut
      rw [hread hp]
      exact readMasked_ne_noSelect masked

/-- A text with a bracket in a quoted span, one in a comment, and one without a
partner behind `order by`. -/
def openText : Text :=
  "select '(' from (select b from t limit 1) x order by (b -- )".toList

/-- Only the bracket without a partner counts. -/
theorem malformed_brackets_quoted :
    ∃ masked literals, protect openText = .ok (masked, literals) ∧
      masked.normalize ≠ [] ∧ isBalanced masked.normalize = false ∧
      Malformed "unbalanced parentheses".toList openText := by
  have hp : protect openText = .ok
      ("select __sqlfmt_lit_0__ from (select b from t limit 1) x order by (b  ".toList,
      ⟨0, ["'('".toList]⟩) := by
    decide +kernel
  have h₀ : Text.normalize
      "select __sqlfmt_lit_0__ from (select b from t limit 1) x order by (b  ".toList ≠
      [] := by
    decide +kernel
  have hb : isBalanced (Text.normalize
      "select __sqlfmt_lit_0__ from (select b from t limit 1) x order by (b  ".toList) =
      false := by
    decide +kernel
  exact ⟨_, _, hp, h₀, hb, ((malformed_brackets openText).1 _ _ hp h₀).2 hb⟩

end SqlRiver
