import SqlRiver.Keyword.Search

/-!
# Letter case

Keywords are compared with their letter case ignored. Folding a character to
lower case moves the 26 capital letters only, so it keeps every class of
characters that a scan looks at: blanks, brackets and the edges of words.

Main statements:

* `toNat_toLower`: what folding does to a code point.
* `isBlank_toLower`, `isEdge_toLower`, `depthStep_toLower`: the classes that
  folding keeps.
* `Text.leads_iff`: a word leads a text if the text starts with a spelling of
  the word.
-/

namespace SqlRiver

/-! ## Characters -/

/-- Folding moves the capital letters by 32 and no other character. -/
theorem toNat_toLower (c : Char) :
    c.toLower.toNat = if 65 ≤ c.toNat ∧ c.toNat ≤ 90 then
      c.toNat + 32 else c.toNat := by
  unfold Char.toLower
  split
  · next h =>
    have h₁ : 65 ≤ c.toNat := UInt32.le_iff_toNat_le.1 h.1
    have h₂ : c.toNat ≤ 90 := UInt32.le_iff_toNat_le.1 h.2
    rw [if_pos ⟨h₁, h₂⟩]
    show (c.val + 32).toNat = c.val.toNat + 32
    have h₃ : c.val.toNat ≤ 90 := h₂
    rw [UInt32.toNat_add]
    simp only [UInt32.reduceToNat]
    omega
  · next h =>
    rw [if_neg]
    rintro ⟨h₁, h₂⟩
    exact h ⟨UInt32.le_iff_toNat_le.2 h₁, UInt32.le_iff_toNat_le.2 h₂⟩

/-- Raising moves the small letters by 32 and no other character. -/
theorem toNat_toUpper (c : Char) :
    c.toUpper.toNat = if 97 ≤ c.toNat ∧ c.toNat ≤ 122 then
      c.toNat - 32 else c.toNat := by
  unfold Char.toUpper
  split
  · next h =>
    have h₁ : 97 ≤ c.toNat := UInt32.le_iff_toNat_le.1 h.1
    have h₂ : c.toNat ≤ 122 := UInt32.le_iff_toNat_le.1 h.2
    rw [if_pos ⟨h₁, h₂⟩]
    show (c.val + ('A'.val - 'a'.val)).toNat = c.val.toNat - 32
    have h₃ : c.val.toNat ≤ 122 := h₂
    have h₄ : 97 ≤ c.val.toNat := h₁
    rw [UInt32.toNat_add]
    have h₅ : ('A'.val - 'a'.val).toNat = 2 ^ 32 - 32 := rfl
    rw [h₅]
    omega
  · next h =>
    rw [if_neg]
    rintro ⟨h₁, h₂⟩
    exact h ⟨UInt32.le_iff_toNat_le.2 h₁, UInt32.le_iff_toNat_le.2 h₂⟩

@[simp] theorem toLower_toLower (c : Char) : c.toLower.toLower = c.toLower := by
  rw [← Char.toNat_inj, toNat_toLower, toNat_toLower]
  grind

/-- The upper form of a character is lowered to what the character is lowered
to. -/
@[simp] theorem toLower_toUpper (c : Char) : c.toUpper.toLower = c.toLower := by
  rw [← Char.toNat_inj, toNat_toLower, toNat_toUpper, toNat_toLower]
  grind

/-- The small letters by their code points. -/
theorem isLower_iff {c : Char} :
    c.isLower = true ↔ 97 ≤ c.toNat ∧ c.toNat ≤ 122 := by
  have h : c.isLower = (decide (97 ≤ c.val) && decide (c.val ≤ 122)) := rfl
  rw [h, Bool.and_eq_true, decide_eq_true_eq, decide_eq_true_eq,
    UInt32.le_iff_toNat_le, UInt32.le_iff_toNat_le]
  rfl

/-- The letters by their code points. -/
theorem isAlpha_iff {c : Char} :
    c.isAlpha = true ↔ (65 ≤ c.toNat ∧ c.toNat ≤ 90) ∨ 97 ≤ c.toNat ∧
    c.toNat ≤ 122 := by
  have h : c.isAlpha = (decide (65 ≤ c.val ∧ c.val ≤ 90) || c.isLower) := rfl
  rw [h, Bool.or_eq_true, decide_eq_true_eq, isLower_iff,
    UInt32.le_iff_toNat_le, UInt32.le_iff_toNat_le]
  rfl

/-- A character that is no letter comes from itself only. -/
theorem toLower_eq_iff {c d : Char} (h : d.isAlpha = false) :
    c.toLower = d ↔ c = d := by
  have hd : ¬ (97 ≤ d.toNat ∧ d.toNat ≤ 122) ∧
      ¬ (65 ≤ d.toNat ∧ d.toNat ≤ 90) := by
    rw [Bool.eq_false_iff, ne_eq, isAlpha_iff] at h
    omega
  rw [← Char.toNat_inj, ← Char.toNat_inj, toNat_toLower]
  grind

/-- Folding keeps the test for a character that is no letter. -/
theorem toLower_beq {c d : Char} (h : d.isAlpha = false) :
    (c.toLower == d) = (c == d) := by
  rw [Bool.eq_iff_iff, beq_iff_eq, beq_iff_eq, toLower_eq_iff h]

@[simp] theorem isBlank_toLower (c : Char) : isBlank c.toLower = isBlank c := by
  simp only [isBlank, blankRanges, List.any_cons, List.any_nil, toNat_toLower]
  grind

@[simp] theorem isSpace_toLower (c : Char) : isSpace c.toLower = isSpace c := by
  simp only [isSpace, toLower_beq (d := ' ') rfl, toLower_beq (d := '\t') rfl,
    toLower_beq (d := '\n') rfl, toLower_beq (d := '\x0c') rfl,
    toLower_beq (d := '\r') rfl]

@[simp] theorem isEdge_toLower (c : Char) : isEdge c.toLower = isEdge c := by
  simp only [isEdge, isSpace_toLower, toLower_beq (d := '(') rfl,
    toLower_beq (d := ')') rfl]

@[simp] theorem depthStep_toLower (c : Char) :
    depthStep c.toLower = depthStep c := by
  simp only [depthStep, toLower_beq (d := '(') rfl, toLower_beq (d := ')') rfl]

/-! ## Texts -/

namespace Text

@[simp] theorem lower_nil : lower [] = [] := rfl

@[simp] theorem lower_cons (c : Char) (t : Text) :
    lower (c :: t) = c.toLower :: lower t :=
  rfl

@[simp] theorem lower_append (t u : Text) :
    lower (t ++ u) = lower t ++ lower u := by
  simp [lower]

@[simp] theorem length_lower (t : Text) : (lower t).length = t.length := by
  simp [lower]

@[simp] theorem lower_lower (t : Text) : lower (lower t) = lower t := by
  simp [lower]

@[simp] theorem lower_upper (t : Text) : lower (upper t) = lower t := by
  simp [lower, upper]

/-- Spellings of one word are equally long. -/
theorem length_eq_of_lower_eq {t u : Text} (h : lower t = lower u) :
    t.length = u.length := by
  rw [← length_lower t, h, length_lower]

/-- A word leads a text if the text starts with a spelling of it. -/
theorem leads_iff : ∀ {word t : Text},
    leads word t = true ↔ ∃ m c, t = m ++ c ∧ lower m = lower word
  | [], t => by
    simp only [leads, true_iff]
    exact ⟨[], t, rfl, rfl⟩
  | w :: word, [] => by
    simp only [leads, Bool.false_eq_true, false_iff]
    rintro ⟨m, c, h, hm⟩
    obtain ⟨rfl, -⟩ := List.append_eq_nil_iff.1 h.symm
    cases hm
  | w :: word, d :: t => by
    rw [leads, Bool.and_eq_true, beq_iff_eq, leads_iff]
    constructor
    · rintro ⟨hd, m, c, rfl, hm⟩
      exact ⟨d :: m, c, rfl, by simp [hd, hm]⟩
    · rintro ⟨m, c, h, hm⟩
      cases m with
      | nil => cases hm
      | cons d' m =>
        obtain ⟨rfl, rfl⟩ := List.cons.inj h
        obtain ⟨hd, hm⟩ := List.cons.inj hm
        exact ⟨hd.symm, m, c, rfl, hm⟩

/-- A spelling of a word at the start of a text leads it. -/
theorem leads_append {word m : Text} (h : lower m = lower word) (c : Text) :
    leads word (m ++ c) = true :=
  leads_iff.2 ⟨m, c, rfl, h⟩

/-- The letter case of a word does not matter to what it leads. -/
theorem leads_lower_word (word t : Text) :
    leads (lower word) t = leads word t := by
  rw [Bool.eq_iff_iff, leads_iff, leads_iff, lower_lower]

/-- Folding keeps what is asked of all characters, when folding keeps the
question. -/
theorem forall_mem_of_lower_eq {p : Char → Prop} (hp : ∀ c, p c.toLower ↔ p c)
    {t u : Text} (h : lower t = lower u) (hu : ∀ c ∈ u, p c) :
    ∀ c ∈ t, p c := by
  intro c hc
  have hc' : c.toLower ∈ lower u := h ▸ List.mem_map_of_mem hc
  obtain ⟨d, hd, hdc⟩ := List.mem_map.1 hc'
  exact (hp c).1 (hdc ▸ (hp d).2 (hu d hd))

end Text

end SqlRiver
