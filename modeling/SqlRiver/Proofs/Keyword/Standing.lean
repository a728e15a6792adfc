import SqlRiver.Error
import SqlRiver.Proofs.Bracket

/-!
# Where keywords stand

A search walks over the places of a text. Here a place is a way to write the
text as one part before it and one part ahead of it, so that what a search
finds, and that it finds no more, is said by concatenation and not by positions.

The words that are searched for never overlap themselves, since their first
letter does not recur. No candidate is passed over then, and all searches answer
the same question: where does the word stand, whole and at the top level?

Main definitions and statements:

* `isPhrase`: the form of the keywords and phrases that are searched for.
* `Stands`, `Absent`, `AbsentIn`: a word stands between two parts of a text,
  nowhere in a text, or nowhere in its first part.
* `aroundFirst?_eq_some_iff`, `aroundLast?_eq_some_iff`,
  `firstPosition?_eq_some_iff`: what searches find.
* `absent_append`, `AbsentIn.append`, `Absent.left`, `Absent.right`: texts put
  together and cut apart.
-/

namespace SqlRiver

/-! ## Phrases -/

/-- A keyword or a phrase of two: small letters, of which the first does not
recur, and at most spaces before a `b`. -/
def isPhrase : Text → Bool
  | [] => false
  | c :: rest =>
    c.isLower && !rest.contains c && rest.all (fun d => d.isLower || d == ' ')
      && (rest.getLastD c).isLower
      && ((c :: rest).zip rest).all fun (d, e) => d != ' ' || e == 'b'

theorem isPhrase_phrase (clause : Clause) : isPhrase clause.phrase = true := by
  cases clause <;> decide

theorem isPhrase_keyword : ∀ k ∈ Keyword.all, isPhrase k.text = true := by
  decide

/-- The words and phrases that are searched for: the reserved words, and two
phrases of two words. -/
def soughtWords : List Text :=
  Keyword.all.map Keyword.text ++ [Clause.groupBy.phrase, Clause.orderBy.phrase]

/-- Every word that is looked for is a phrase. -/
theorem isPhrase_of_mem_soughtWords {word : Text} (h : word ∈ soughtWords) :
    isPhrase word = true := by
  rcases List.mem_append.1 h with h | h
  · obtain ⟨k, hk, rfl⟩ := List.mem_map.1 h
    exact isPhrase_keyword k hk
  · rcases List.mem_pair.1 h with rfl | rfl
    · exact isPhrase_phrase .groupBy
    · exact isPhrase_phrase .orderBy

theorem toLower_of_isLower {c : Char} (h : c.isLower = true) :
    c.toLower = c := by
  rw [← Char.toNat_inj, toNat_toLower]
  obtain ⟨h₁, h₂⟩ := isLower_iff.1 h
  rw [if_neg (by omega)]

/-- A character is a letter if its lower case is one. -/
theorem isAlpha_of_toLower {c : Char} (h : c.toLower.isLower = true) :
    c.isAlpha = true := by
  obtain ⟨h₁, h₂⟩ := isLower_iff.1 h
  have hn := toNat_toLower c
  rw [isAlpha_iff]
  split at hn <;> omega

theorem isBlank_of_isLower {c : Char} (h : c.isLower = true) :
    isBlank c = false := by
  obtain ⟨h₁, h₂⟩ := isLower_iff.1 h
  simp only [isBlank, blankRanges, List.any_cons, List.any_nil, Bool.or_false,
    Bool.or_eq_false_iff, Bool.and_eq_false_iff, decide_eq_false_iff_not]
  omega

theorem isEdge_of_isLower {c : Char} (h : c.isLower = true) :
    isEdge c = false := by
  rw [Bool.eq_false_iff]
  intro he
  simp only [isEdge, isSpace, Bool.or_eq_true, beq_iff_eq] at he
  rcases he with (((((rfl | rfl) | rfl) | rfl) | rfl) | rfl) | rfl <;> cases h

section Phrase

variable {word : Text}

theorem ne_nil_of_isPhrase (hw : isPhrase word = true) : word ≠ [] := by
  rintro rfl
  cases hw

/-- A phrase has small letters and spaces only. -/
theorem mem_of_isPhrase (hw : isPhrase word = true) :
    ∀ c ∈ word, c.isLower = true ∨ c = ' ' := by
  cases word with
  | nil => cases hw
  | cons c rest =>
    simp only [isPhrase, Bool.and_eq_true] at hw
    intro d hd
    rcases List.mem_cons.1 hd with rfl | hd
    · exact .inl hw.1.1.1.1
    · have := List.all_eq_true.1 hw.1.1.2 d hd
      simpa using this

theorem lower_of_isPhrase (hw : isPhrase word = true) : word.lower = word := by
  refine (List.map_congr_left fun c hc => ?_).trans (List.map_id word)
  rcases mem_of_isPhrase hw c hc with h | rfl
  · exact toLower_of_isLower h
  · rfl

/-- The first letter of a phrase does not recur. -/
theorem head_not_mem_of_isPhrase {c : Char} {rest : Text}
    (hw : isPhrase (c :: rest) = true) : c ∉ rest := by
  simp only [isPhrase, Bool.and_eq_true, Bool.not_eq_true',
    List.contains_eq_mem, decide_eq_false_iff_not] at hw
  exact hw.1.1.1.2

/-- What follows a space inside a phrase is a `b`. -/
theorem of_space_isPhrase {u v : Text} (hw : isPhrase (u ++ ' ' :: v) = true) :
    v.head? = some 'b' := by
  have hzip : ∀ (u : Text), (((u ++ ' ' :: v).zip (u ++ ' ' :: v).tail).all
      fun (d, e) => d != ' ' || e == 'b') = true →
      v = [] ∨ v.head? = some 'b' := by
    intro u
    induction u with
    | nil =>
      cases v with
      | nil => simp
      | cons e v => intro h; simp at h; simp [h.1]
    | cons d u ih =>
      intro h
      cases u with
      | nil =>
        cases v with
        | nil => simp
        | cons e v => simp at h; simp [h.2.1]
      | cons d' u =>
        refine ih ?_
        simp only [List.cons_append, List.tail_cons, List.zip_cons_cons,
          List.all_cons, Bool.and_eq_true] at h ⊢
        exact h.2
  cases u with
  | nil => simp [isPhrase] at hw
  | cons c u =>
    simp only [List.cons_append, isPhrase, Bool.and_eq_true] at hw
    rcases hzip (c :: u) hw.2 with rfl | h
    · simp at hw
    · exact h

end Phrase

/-! ## Spellings -/

section Spelling

variable {word m : Text}

theorem spelling_ne_nil (hw : isPhrase word = true)
    (hm : m.lower = word.lower) : m ≠ [] := by
  rintro rfl
  have := Text.length_eq_of_lower_eq hm
  exact ne_nil_of_isPhrase hw (List.length_eq_zero_iff.1 this.symm)

/-- No bracket stands in a phrase, in any spelling. -/
theorem depth_spelling (hw : isPhrase word = true) (hm : m.lower = word.lower) :
    depth m = 0 := by
  rw [depth_of_lower_eq hm]
  refine depth_eq_zero fun c hc => ?_
  rcases mem_of_isPhrase hw c hc with h | rfl
  · have := isEdge_of_isLower h
    simp only [isEdge, Bool.or_eq_false_iff] at this
    simp [depthStep, this]
  · rfl

/-- A spelling starts with a letter. -/
theorem head?_spelling (hw : isPhrase word = true) (hm : m.lower = word.lower) :
    ∃ c, m.head? = some c ∧ c.toLower.isLower = true := by
  obtain ⟨c, rest, rfl⟩ := List.exists_cons_of_ne_nil (spelling_ne_nil hw hm)
  refine ⟨c, rfl, ?_⟩
  cases word with
  | nil => cases hm
  | cons d word =>
    rw [lower_of_isPhrase hw] at hm
    rw [(List.cons.inj hm).1]
    simp only [isPhrase, Bool.and_eq_true] at hw
    exact hw.1.1.1.1

/-- A spelling ends with a letter. -/
theorem getLast?_spelling (hw : isPhrase word = true)
    (hm : m.lower = word.lower) :
    ∃ c, m.getLast? = some c ∧ c.toLower.isLower = true := by
  have hlast : (m.lower).getLast? = word.getLast? := by
    rw [hm, lower_of_isPhrase hw]
  obtain ⟨c, hc⟩ :=
    List.getLast?_isSome.2 (spelling_ne_nil hw hm) |> Option.isSome_iff_exists.1
  refine ⟨c, hc, ?_⟩
  rw [Text.lower, List.getLast?_map, hc, Option.map_some] at hlast
  cases word with
  | nil => cases hw
  | cons d word =>
    have hd : (d :: word).getLast? = some (word.getLastD d) := by
      cases word with
      | nil => rfl
      | cons e word => simp [List.getLast?_cons]
    rw [hd] at hlast
    simp only [isPhrase, Bool.and_eq_true] at hw
    rw [Option.some.inj hlast]
    exact hw.1.2

theorem isEdge_head_spelling (hw : isPhrase word = true)
    (hm : m.lower = word.lower) : atEdge m.head? = false := by
  obtain ⟨c, hc, hl⟩ := head?_spelling hw hm
  rw [hc, atEdge, ← isEdge_toLower]
  exact isEdge_of_isLower hl

theorem isEdge_last_spelling (hw : isPhrase word = true)
    (hm : m.lower = word.lower) : atEdge m.getLast? = false := by
  obtain ⟨c, hc, hl⟩ := getLast?_spelling hw hm
  rw [hc, atEdge, ← isEdge_toLower]
  exact isEdge_of_isLower hl

end Spelling

/-! ## Standing -/

/-- The text `m` is the word, whole and at the top level, when `a` is before it
and `c` behind. -/
structure Stands (word a m c : Text) : Prop where
  spelled : m.lower = word.lower
  top : depth a = 0
  left : atEdge a.getLast? = true
  right : atEdge c.head? = true

/-- What stands behind a keyword is at the top level. -/
theorem Stands.depth_eq {word a m c : Text} (hs : Stands word a m c)
    (hw : isPhrase word = true) : depth (a ++ m) = 0 := by
  rw [depth_append, hs.top, depth_spelling hw hs.spelled]
  rfl

/-- The word stands nowhere in a text. -/
def Absent (word t : Text) : Prop :=
  ∀ a m c, t = a ++ m ++ c → ¬ Stands word a m c

/-- The word stands nowhere in a text with its start, when `behind` follows. -/
def AbsentIn (word t behind : Text) : Prop :=
  ∀ a x m c, t = a ++ x → x ≠ [] → x ++ behind = m ++ c → ¬ Stands word a m c

/-! ## Places -/

/-- The place that divides a text into two parts. -/
def placeAt (a b : Text) : Place := ⟨a.length, a.getLast?, depth a, b⟩

/-- The character before the rest of a text. -/
theorem getLast?_cons_or (c : Char) (t : Text) (before : Option Char) :
    (c :: t).getLast?.or before = t.getLast?.or (some c) := by
  rw [List.getLast?_cons]
  cases t.getLast? <;> rfl

/-- A place of a text divides it. -/
theorem mem_placesFrom {p : Place} :
    ∀ {pos : Nat} {before : Option Char} {d : Int} {t : Text},
      p ∈ placesFrom pos before d t ↔ ∃ a b, t = a ++ b ∧
      p = ⟨pos + a.length, a.getLast?.or before, d + depth a, b⟩
  | pos, before, d, [] => by
    simp only [placesFrom, List.mem_singleton]
    constructor
    · rintro rfl
      exact ⟨[], [], rfl, by simp⟩
    · rintro ⟨a, b, h, rfl⟩
      obtain ⟨rfl, rfl⟩ := List.append_eq_nil_iff.1 h.symm
      simp
  | pos, before, d, c :: t => by
    rw [placesFrom, List.mem_cons, mem_placesFrom]
    constructor
    · rintro (rfl | ⟨a, b, rfl, rfl⟩)
      · exact ⟨[], c :: t, rfl, by simp⟩
      · refine ⟨c :: a, b, rfl, ?_⟩
        rw [getLast?_cons_or, List.length_cons, depth_cons, Nat.add_assoc,
          Nat.add_comm 1, Int.add_assoc]
    · rintro ⟨a, b, h, rfl⟩
      cases a with
      | nil =>
        left
        obtain rfl : c :: t = b := h
        simp
      | cons c' a =>
        obtain ⟨rfl, rfl⟩ := List.cons.inj h
        right
        refine ⟨a, b, rfl, ?_⟩
        rw [getLast?_cons_or, List.length_cons, depth_cons, Nat.add_assoc,
          Nat.add_comm 1, Int.add_assoc]

/-- The places of a text are the ways to divide it. -/
theorem mem_places {p : Place} {t : Text} :
    p ∈ places t ↔ ∃ a b, t = a ++ b ∧ p = placeAt a b := by
  rw [places, mem_placesFrom]
  simp [placeAt]

/-- Places come in order, and between two of them lies what is ahead of the
first only. -/
theorem pairwise_placesFrom :
    ∀ (pos : Nat) (before : Option Char) (d : Int) (t : Text),
      (placesFrom pos before d t).Pairwise fun p q => ∃ x, x ≠ [] ∧
      q.pos = p.pos + x.length ∧ p.ahead = x ++ q.ahead
  | _, _, _, [] => by simp [placesFrom]
  | pos, before, d, c :: t => by
    rw [placesFrom, List.pairwise_cons]
    refine ⟨fun q hq => ?_, pairwise_placesFrom _ _ _ t⟩
    obtain ⟨a, b, rfl, rfl⟩ := mem_placesFrom.1 hq
    exact ⟨c :: a, by simp, by simp; omega, by simp⟩

/-- A phrase that is spelled at two places does not overlap itself. -/
theorem length_le_of_leads {word x y : Text} (hw : isPhrase word = true)
    (hx : x ≠ []) (h₁ : Text.leads word (x ++ y) = true)
    (h₂ : Text.leads word y = true) : word.length ≤ x.length := by
  obtain ⟨m, c, hm, hml⟩ := Text.leads_iff.1 h₁
  obtain ⟨n, e, hn, hnl⟩ := Text.leads_iff.1 h₂
  rcases List.append_eq_append_iff.1 hm with ⟨z, rfl, hz⟩ | ⟨z, rfl, -⟩
  · -- `m` reaches into `y`: its letter there is the first letter of the word
    cases z with
    | nil => simp [← Text.length_eq_of_lower_eq hml]
    | cons d z =>
      exfalso
      obtain ⟨w, word, rfl⟩ :=
        List.exists_cons_of_ne_nil (ne_nil_of_isPhrase hw)
      obtain ⟨x₁, x, rfl⟩ := List.exists_cons_of_ne_nil hx
      obtain ⟨n₁, n, rfl⟩ := List.exists_cons_of_ne_nil (spelling_ne_nil hw hnl)
      obtain rfl : d = n₁ := by
        rw [hn] at hz
        exact (List.cons.inj hz).1.symm
      rw [lower_of_isPhrase hw] at hml hnl
      have hd : d.toLower = w := (List.cons.inj hnl).1
      have hmem : d.toLower ∈ word := by
        have := (List.cons.inj hml).2
        rw [← this]
        simp
      exact head_not_mem_of_isPhrase hw (hd ▸ hmem)
  · rw [← Text.length_eq_of_lower_eq hml]
    simp

/-- Places that are far enough apart are all kept. -/
theorem apart_eq_self {n : Nat} : ∀ {least : Nat} {ps : List Place},
    (∀ p ∈ ps, least ≤ p.pos) → ps.Pairwise (fun p q => p.pos + n ≤ q.pos) →
      apart n least ps = ps
  | _, [], _, _ => rfl
  | least, p :: ps, hl, hp => by
    obtain ⟨hp₁, hp₂⟩ := List.pairwise_cons.1 hp
    have hlt : ¬ p.pos < least := Nat.not_lt.2 (hl p (by simp))
    rw [apart, if_neg hlt, apart_eq_self hp₁ hp₂]

/-- A phrase in any letter case is found wherever it is spelled as a whole
word. -/
theorem occurrences_eq {word : Text} (hw : isPhrase word.lower = true)
    (t : Text) : occurrences word t = (places t).filter (Place.holds word) := by
  have hspaced : ((places t).filter (Place.spells word)).Pairwise
      fun p q => p.pos + word.length ≤ q.pos := by
    rw [List.pairwise_filter]
    refine (pairwise_placesFrom 0 none 0 t).imp ?_
    rintro p q ⟨x, hx, hpos, hahead⟩ hp hq
    rw [Place.spells, ← Text.leads_lower_word] at hp hq
    rw [hahead] at hp
    have := length_le_of_leads hw hx hp hq
    rw [Text.length_lower] at this
    omega
  have hne : word.isEmpty = false := by
    cases word with
    | nil => cases hw
    | cons c word => rfl
  rw [occurrences, spellings, hne, if_neg (by simp),
    apart_eq_self (by simp) hspaced, List.filter_filter]
  refine List.filter_congr fun p _ => ?_
  rw [Place.holds, Bool.and_comm]

/-- A phrase is found wherever it stands at the top level. -/
theorem topOccurrences_eq {word : Text} (hw : isPhrase word = true) (t : Text) :
    topOccurrences word t = (places t).filter fun p => p.isTop &&
      p.holds word := by
  rw [topOccurrences, occurrences_eq (by rwa [lower_of_isPhrase hw]),
    List.filter_filter]

/-- The test of a place for a word. -/
theorem holds_iff {word a b : Text} :
    (placeAt a b).holds word = true ↔ ∃ m c, b = m ++ c ∧ m.lower = word.lower ∧
      atEdge a.getLast? = true ∧ atEdge c.head? = true := by
  simp only [placeAt, Place.holds, Place.spells, Place.isWhole, isWhole,
    Bool.and_eq_true, Text.leads_iff]
  constructor
  · rintro ⟨⟨m, c, rfl, hm⟩, hleft, hright⟩
    refine ⟨m, c, rfl, hm, hleft, ?_⟩
    simpa [← Text.length_eq_of_lower_eq hm] using hright
  · rintro ⟨m, c, rfl, hm, hleft, hright⟩
    refine ⟨⟨m, c, rfl, hm⟩, hleft, ?_⟩
    simpa [← Text.length_eq_of_lower_eq hm] using hright

/-- The test of a place for a word of the top level. -/
theorem holds_placeAt {word a b : Text} :
    ((placeAt a b).isTop && (placeAt a b).holds word) = true ↔
      ∃ m c, b = m ++ c ∧ Stands word a m c := by
  rw [Bool.and_eq_true, holds_iff]
  constructor
  · rintro ⟨htop, m, c, rfl, hm, hleft, hright⟩
    exact ⟨m, c, rfl, hm, beq_iff_eq.1 htop, hleft, hright⟩
  · rintro ⟨m, c, rfl, h⟩
    exact ⟨beq_iff_eq.2 h.top, m, c, rfl, h.spelled, h.left, h.right⟩

/-! ## Searches -/

section Search

variable {word t a c : Text}

/-- The first element of an ordered list with a property. -/
theorem head?_filter_iff {α : Type} {R : α → α → Prop}
    (hR : ∀ a b, R a b → ¬ R b a) {P : α → Bool} {p : α} :
    ∀ {ps : List α}, ps.Pairwise R → ((ps.filter P).head? = some p ↔
      p ∈ ps ∧ P p = true ∧ ∀ q ∈ ps, R q p → P q = false)
  | [], _ => by simp
  | q :: ps, h => by
    obtain ⟨hq, hps⟩ := List.pairwise_cons.1 h
    have ih := head?_filter_iff hR (P := P) (p := p) hps
    by_cases hPq : P q = true
    · rw [List.filter_cons_of_pos hPq, List.head?_cons, Option.some.injEq]
      constructor
      · rintro rfl
        refine ⟨by simp, hPq, fun r hr hlt => ?_⟩
        rcases List.mem_cons.1 hr with rfl | hr
        · exact absurd hlt (hR _ _ hlt)
        · exact absurd hlt (hR _ _ (hq r hr))
      · rintro ⟨hp, -, hfirst⟩
        rcases List.mem_cons.1 hp with rfl | hp
        · rfl
        · rw [hfirst q (by simp) (hq p hp)] at hPq
          cases hPq
    · rw [List.filter_cons_of_neg hPq, ih]
      constructor
      · rintro ⟨hp, hPp, hfirst⟩
        refine ⟨List.mem_cons_of_mem _ hp, hPp, fun r hr hlt => ?_⟩
        rcases List.mem_cons.1 hr with rfl | hr
        · simpa using hPq
        · exact hfirst r hr hlt
      · rintro ⟨hp, hPp, hfirst⟩
        rcases List.mem_cons.1 hp with rfl | hp
        · exact absurd hPp hPq
        · exact ⟨hp, hPp, fun r hr => hfirst r (List.mem_cons_of_mem _ hr)⟩

theorem pairwise_pos (t : Text) :
    (places t).Pairwise fun p q => p.pos < q.pos := by
  refine (pairwise_placesFrom 0 none 0 t).imp ?_
  rintro p q ⟨x, hx, hpos, -⟩
  have : 0 < x.length := List.length_pos_iff.2 hx
  omega

/-- The first place of a text with a property. -/
theorem head?_filter_places {P : Place → Bool} {p : Place} :
    ((places t).filter P).head? = some p ↔
      p ∈ places t ∧ P p = true ∧ ∀ q ∈ places t, q.pos < p.pos → P q = false :=
  head?_filter_iff (fun _ _ => Nat.lt_asymm) (pairwise_pos t)

/-- The last place of a text with a property. -/
theorem getLast?_filter_places {P : Place → Bool} {p : Place} :
    ((places t).filter P).getLast? = some p ↔ p ∈ places t ∧ P p = true ∧
    ∀ q ∈ places t, p.pos < q.pos → P q = false := by
  have h := head?_filter_iff (fun _ _ => Nat.lt_asymm) (P := P) (p :=
    p) (List.pairwise_reverse.2 (pairwise_pos t))
  simpa only [List.filter_reverse, List.head?_reverse, List.mem_reverse] using h

/-- No place of a text has a word if the word is absent. -/
theorem holds_eq_false_iff :
    (∀ p ∈ places t, (p.isTop && p.holds word) = false) ↔ Absent word t := by
  constructor
  · rintro h a m c rfl hs
    have := h (placeAt a (m ++ c)) (mem_places.2 ⟨a, m ++ c, by simp, rfl⟩)
    rw [holds_placeAt.2 ⟨m, c, rfl, hs⟩] at this
    cases this
  · intro h p hp
    obtain ⟨a, b, rfl, rfl⟩ := mem_places.1 hp
    rw [Bool.eq_false_iff]
    intro hh
    obtain ⟨m, c, rfl, hs⟩ := holds_placeAt.1 hh
    exact h a m c (by simp) hs

/-- No place before a part of a text has a word if the word is absent there. -/
theorem holds_before_eq_false_iff {b : Text} :
    (∀ p ∈ places (a ++ b), p.pos < a.length →
      (p.isTop && p.holds word) = false) ↔ AbsentIn word a b := by
  constructor
  · rintro h u x m c rfl hx hmc hs
    have hlen : 0 < x.length := List.length_pos_iff.2 hx
    have := h (placeAt u (x ++ b)) (mem_places.2 ⟨u, x ++ b, by simp, rfl⟩)
      (by simp [placeAt, hlen])
    rw [holds_placeAt.2 ⟨m, c, hmc, hs⟩] at this
    cases this
  · intro h p hp hlt
    obtain ⟨u, v, huv, rfl⟩ := mem_places.1 hp
    rw [Bool.eq_false_iff]
    intro hh
    obtain ⟨m, c, rfl, hs⟩ := holds_placeAt.1 hh
    rcases List.append_eq_append_iff.1 huv with ⟨x, rfl, -⟩ | ⟨x, rfl, hx⟩
    · simp only [placeAt, List.length_append] at hlt
      omega
    · refine h u x m c rfl ?_ hx.symm hs
      rintro rfl
      simp [placeAt] at hlt

/-- A word has no occurrence at the top level if and only if it is absent. -/
theorem topOccurrences_eq_nil_iff (hw : isPhrase word = true) :
    topOccurrences word t = [] ↔ Absent word t := by
  rw [topOccurrences_eq hw, List.filter_eq_nil_iff, ← holds_eq_false_iff]
  simp

/-- A word is not found at the top level if and only if it is absent. -/
theorem findTop_eq_none_iff (hw : isPhrase word = true) :
    findTop t word 1 = none ↔ Absent word t := by
  rw [← topOccurrences_eq_nil_iff hw, findTop, Option.map_eq_none_iff]
  show (topOccurrences word t)[0]? = none ↔ _
  simp

/-- A text is not divided at the first place of a word if and only if the word
is absent. -/
theorem aroundFirst?_eq_none_iff (hw : isPhrase word = true) :
    aroundFirst? word t = none ↔ Absent word t := by
  rw [aroundFirst?, Option.map_eq_none_iff, List.head?_eq_none_iff,
    topOccurrences_eq_nil_iff hw]

/-- A text is not divided at the last place of a word if and only if the word is
absent. -/
theorem aroundLast?_eq_none_iff (hw : isPhrase word = true) :
    aroundLast? word t = none ↔ Absent word t := by
  rw [aroundLast?, Option.map_eq_none_iff, List.getLast?_eq_none_iff,
    topOccurrences_eq_nil_iff hw]

/-- What stands around a word, as it is answered for the place of the word. -/
theorem around_placeAt {m : Text} (hm : m.lower = word.lower) :
    around word (a ++ m ++ c) (placeAt a (m ++ c)) = (a, c) := by
  simp [around, placeAt, ← Text.length_eq_of_lower_eq hm]

/-- The first place of the top level where a phrase stands. -/
theorem aroundFirst?_eq_some_iff (hw : isPhrase word = true) :
    aroundFirst? word t = some (a, c) ↔
      ∃ m, t = a ++ m ++ c ∧ Stands word a m c ∧ AbsentIn word a (m ++ c) := by
  rw [aroundFirst?, topOccurrences_eq hw, Option.map_eq_some_iff]
  constructor
  · rintro ⟨p, hp, hac⟩
    obtain ⟨hmem, hh, hfirst⟩ := head?_filter_places.1 hp
    obtain ⟨u, b, rfl, rfl⟩ := mem_places.1 hmem
    obtain ⟨m, e, rfl, hs⟩ := holds_placeAt.1 hh
    rw [← List.append_assoc, around_placeAt hs.spelled] at hac
    cases hac
    exact ⟨m, by simp, hs, holds_before_eq_false_iff.1 hfirst⟩
  · rintro ⟨m, rfl, hs, habs⟩
    refine ⟨placeAt a (m ++ c), head?_filter_places.2 ⟨?_, ?_, ?_⟩,
      around_placeAt hs.spelled⟩
    · exact mem_places.2 ⟨a, m ++ c, by simp, rfl⟩
    · exact holds_placeAt.2 ⟨m, c, rfl, hs⟩
    · rw [List.append_assoc]
      exact holds_before_eq_false_iff.2 habs

/-- Behind a phrase that stands at the top level, the same phrase stands where
it stands in the text behind. -/
theorem Stands.behind_iff {m u n v : Text} (hw : isPhrase word = true)
    (hs : Stands word a m (u ++ n ++ v)) :
    Stands word (a ++ m ++ u) n v ↔ Stands word u n v := by
  have hd := hs.depth_eq hw
  constructor
  · intro h
    refine ⟨h.spelled, ?_, ?_, h.right⟩
    · have := h.top
      rwa [depth_append, hd, Int.zero_add] at this
    · cases hu : u with
      | nil => rfl
      | cons d u' =>
        have := h.left
        rwa [List.getLast?_append_of_ne_nil _ (by simp [hu]), hu] at this
  · intro h
    refine ⟨h.spelled, by rw [depth_append, hd, h.top]; rfl, ?_, h.right⟩
    cases hu : u with
    | nil =>
      -- the text behind a whole word does not start with a letter
      have hright := hs.right
      obtain ⟨d, hd', -⟩ := head?_spelling hw h.spelled
      have hhead := isEdge_head_spelling hw h.spelled
      rw [hu, List.nil_append, List.head?_append, hd'] at hright
      rw [hd'] at hhead
      rw [Option.some_or, hhead] at hright
      cases hright
    | cons d u' =>
      rw [List.getLast?_append_of_ne_nil _ (by simp), ← hu]
      exact h.left

/-- A phrase that stands at a later place stands behind the whole of the earlier
one. -/
theorem Stands.exists_behind {m u n v : Text} (hw : isPhrase word = true)
    (hs : Stands word a m c) (hn : Stands word u n v)
    (h : a ++ m ++ c = u ++ n ++ v) (hlt : a.length < u.length) :
    ∃ z, u = a ++ m ++ z ∧ c = z ++ n ++ v := by
  rw [List.append_assoc, List.append_assoc] at h
  rcases List.append_eq_append_iff.1 h with ⟨x, rfl, hx⟩ | ⟨x, rfl, -⟩
  · have hx₀ : x ≠ [] := by
      rintro rfl
      simp at hlt
    have hlen := length_le_of_leads hw hx₀ (y := n ++ v)
      (hx ▸ Text.leads_append hs.spelled c) (Text.leads_append hn.spelled v)
    rw [← Text.length_eq_of_lower_eq hs.spelled] at hlen
    rcases List.append_eq_append_iff.1 hx with ⟨z, rfl, rfl⟩ | ⟨z, rfl, hz⟩
    · exact ⟨z, by simp, by simp⟩
    · obtain rfl : z = [] := by
        rw [List.length_append] at hlen
        exact List.length_eq_zero_iff.1 (by omega)
      exact ⟨[], by simp, by simpa using hz.symm⟩
  · rw [List.length_append] at hlt
    omega

/-- The last place of the top level where a phrase stands. -/
theorem aroundLast?_eq_some_iff (hw : isPhrase word = true) :
    aroundLast? word t = some (a, c) ↔
      ∃ m, t = a ++ m ++ c ∧ Stands word a m c ∧ Absent word c := by
  rw [aroundLast?, topOccurrences_eq hw, Option.map_eq_some_iff]
  constructor
  · rintro ⟨p, hp, hac⟩
    obtain ⟨hmem, hh, hlast⟩ := getLast?_filter_places.1 hp
    obtain ⟨u, b, rfl, rfl⟩ := mem_places.1 hmem
    obtain ⟨m, e, rfl, hs⟩ := holds_placeAt.1 hh
    rw [← List.append_assoc, around_placeAt hs.spelled] at hac
    cases hac
    refine ⟨m, by simp, hs, ?_⟩
    rintro x n y rfl hn
    have hlen := List.length_pos_iff.2 (spelling_ne_nil hw hs.spelled)
    have :=
      hlast (placeAt (a ++ m ++ x) (n ++ y)) (mem_places.2 ⟨_, _, by simp, rfl⟩)
        (by simp only [placeAt, List.length_append]; omega)
    rw [holds_placeAt.2 ⟨n, y, rfl, (hs.behind_iff hw).2 hn⟩] at this
    cases this
  · rintro ⟨m, rfl, hs, habs⟩
    refine ⟨placeAt a (m ++ c), getLast?_filter_places.2 ⟨?_, ?_, ?_⟩,
      around_placeAt hs.spelled⟩
    · exact mem_places.2 ⟨a, m ++ c, by simp, rfl⟩
    · exact holds_placeAt.2 ⟨m, c, rfl, hs⟩
    · intro q hq hlt
      obtain ⟨u, b, hub, rfl⟩ := mem_places.1 hq
      rw [Bool.eq_false_iff]
      intro hh
      obtain ⟨n, y, rfl, hn⟩ := holds_placeAt.1 hh
      -- the later place lies behind the word, since the word does not overlap
      -- itself
      obtain ⟨z, rfl, rfl⟩ := hs.exists_behind hw hn (by simpa using hub) hlt
      exact habs z n y rfl ((hs.behind_iff hw).1 hn)

/-- No word of a list stands in a text if none is found. -/
theorem firstPosition?_eq_none_iff {words : List Text} :
    firstPosition? words t = none ↔ ∀ word ∈ words, Absent word t := by
  simp only [firstPosition?, Option.map_eq_none_iff, List.find?_eq_none,
    ← holds_eq_false_iff, Bool.and_eq_true, List.any_eq_true, not_and,
    not_exists, Bool.and_eq_false_iff]
  grind

/-- The first place of the top level where a word of a list stands. -/
theorem firstPosition?_eq_some_iff {words : List Text} {pos : Nat} :
    firstPosition? words t = some pos ↔ ∃ a m c, t = a ++ m ++ c ∧
      a.length = pos ∧ (∃ word ∈ words, Stands word a m c) ∧
      ∀ word ∈ words, AbsentIn word a (m ++ c) := by
  have htest (p : Place) : (p.isTop && words.any fun word => p.holds word) =
      true ↔ ∃ word ∈ words, (p.isTop && p.holds word) = true := by
    simp only [Bool.and_eq_true, List.any_eq_true]
    grind
  rw [firstPosition?, Option.map_eq_some_iff, ← List.head?_filter]
  constructor
  · rintro ⟨p, hp, rfl⟩
    obtain ⟨hmem, hh, hfirst⟩ := head?_filter_places.1 hp
    obtain ⟨a, b, rfl, rfl⟩ := mem_places.1 hmem
    obtain ⟨word, hword, hh⟩ := (htest _).1 hh
    obtain ⟨m, c, rfl, hs⟩ := holds_placeAt.1 hh
    refine ⟨a, m, c, by simp, rfl, ⟨word, hword, hs⟩, fun v hv => ?_⟩
    refine holds_before_eq_false_iff.1 fun q hq hlt => ?_
    rw [Bool.eq_false_iff]
    intro hvq
    have := hfirst q hq hlt
    rw [(htest q).2 ⟨v, hv, hvq⟩] at this
    cases this
  · rintro ⟨a, m, c, rfl, rfl, ⟨word, hword, hs⟩, habs⟩
    refine ⟨placeAt a (m ++ c), head?_filter_places.2 ⟨?_, ?_, ?_⟩, rfl⟩
    · exact mem_places.2 ⟨a, m ++ c, by simp, rfl⟩
    · exact (htest _).2 ⟨word, hword, holds_placeAt.2 ⟨m, c, rfl, hs⟩⟩
    · intro q hq hlt
      rw [Bool.eq_false_iff]
      intro hh
      obtain ⟨v, hv, hvq⟩ := (htest q).1 hh
      rw [List.append_assoc] at hq
      rw [holds_before_eq_false_iff.2 (habs v hv) q hq hlt] at hvq
      cases hvq

/-- A whole word at the start of a text. -/
theorem stripWord?_eq_some_iff :
    stripWord? word t = some c ↔ ∃ m, t = m ++ c ∧ Stands word [] m c := by
  unfold stripWord?
  constructor
  · intro h
    split at h
    · next hc =>
      obtain ⟨hl, he⟩ := Bool.and_eq_true_iff.1 hc
      obtain ⟨m, e, rfl, hm⟩ := Text.leads_iff.1 hl
      have hdrop : (m ++ e).drop word.length = e := by
        simp [← Text.length_eq_of_lower_eq hm]
      rw [hdrop] at h he
      cases h
      exact ⟨m, rfl, hm, rfl, rfl, he⟩
    · cases h
  · rintro ⟨m, rfl, hs⟩
    have hdrop : (m ++ c).drop word.length = c := by
      simp [← Text.length_eq_of_lower_eq hs.spelled]
    rw [hdrop, Text.leads_append hs.spelled, hs.right]
    rfl

/-- No word is taken off a text that it does not start. -/
theorem stripWord?_eq_none_iff :
    stripWord? word t = none ↔ ∀ m c, t = m ++ c → ¬ Stands word [] m c := by
  rw [Option.eq_none_iff_forall_not_mem]
  constructor
  · rintro h m c rfl hs
    exact h c (stripWord?_eq_some_iff.2 ⟨m, rfl, hs⟩)
  · intro h c hc
    obtain ⟨m, ht, hs⟩ := stripWord?_eq_some_iff.1 hc
    exact h m c ht hs

end Search

end SqlRiver
