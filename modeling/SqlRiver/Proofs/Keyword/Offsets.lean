import Mathlib.Data.Finset.Sort
import Mathlib.Data.List.Sort
import Mathlib.Order.Bounds.Basic
import SqlRiver.Proofs.Keyword.Standing
import SqlRiver.Proofs.Text.Bytes

/-!
# Offsets of keywords

What a search answers is said here by the bytes of a text alone. A word stands
at an offset if the bytes there spell it, letter case ignored, and the bytes
next to them are edges. A search for the `n`-th occurrence answers the `n`-th
offset of this kind in ascending order, or in descending order for a negative
`n`: a word that is searched for does not overlap itself, so passing over the
overlaps loses no offset. And since no byte of another character is a byte of a
word or a bracket, bytes and characters agree on what is an offset of the word.

Main definitions and statements:

* `WordAt`, `wordOffsets`, `topOffsets`: the offsets at which a word stands,
  anywhere or outside of brackets.
* `mem_wordOffsets`, `mem_topOffsets`: these are offsets between characters,
  before a spelling of the word.
* `Enumerates`: a search by number answers the elements of a set in order, from
  either end.
* `find_enumerates`: searches enumerate the offsets of a word, and the first of
  several words is the least one.
-/

namespace SqlRiver

open Text

variable {word t : Text} {off : Nat}

/-! ## Edges and brackets -/

/-- The code points of the characters that may stand next to a whole word. -/
def edgeCodes : List Nat := [0x09, 0x0A, 0x0C, 0x0D, 0x20, 0x28, 0x29]

/-- May this byte stand next to a whole word? -/
def isEdgeByte (b : UInt8) : Bool := edgeCodes.contains b.toNat

theorem isEdge_eq_contains (c : Char) :
    isEdge c = edgeCodes.contains c.toNat := by
  rw [Bool.eq_iff_iff]
  simp only [isEdge, isSpace, edgeCodes, Bool.or_eq_true, beq_iff_eq,
    ← Char.toNat_inj, List.contains_eq_mem, decide_eq_true_eq, List.mem_cons,
    List.not_mem_nil, or_false, Char.reduceToNat]
  omega

/-- A character is an edge if and only if one of its bytes is. -/
theorem isEdgeByte_of_mem {c : Char} {b : UInt8}
    (h : b ∈ String.utf8EncodeChar c) : isEdgeByte b = isEdge c := by
  rw [isEdge_eq_contains, isEdgeByte]
  by_cases hc : c.toNat < 128
  · rw [utf8EncodeChar_ascii hc, List.mem_singleton] at h
    rw [h, toNat_toUInt8 hc]
  · -- neither the byte nor the character is one of ASCII
    have hb := le_of_mem_utf8EncodeChar (Nat.le_of_not_lt hc) b h
    have hnot : ∀ n, 128 ≤ n → edgeCodes.contains n = false := by
      intro n hn
      simp only [edgeCodes, List.contains_eq_mem, decide_eq_false_iff_not,
        List.mem_cons, List.not_mem_nil, or_false]
      omega
    rw [hnot _ hb, hnot _ (Nat.le_of_not_lt hc)]

/-- The byte before a place is an edge if the character before it is one. -/
theorem all_getLast?_bytes (a : Text) :
    a.bytes.getLast?.all isEdgeByte = atEdge a.getLast? := by
  rcases List.eq_nil_or_concat' a with rfl | ⟨a, c, rfl⟩
  · rfl
  · obtain ⟨b, hb⟩ := Option.isSome_iff_exists.1
      (List.getLast?_isSome.2 (String.utf8EncodeChar_ne_nil (c := c)))
    rw [bytes_append, bytes_cons, bytes_nil, List.append_nil,
      List.getLast?_append_of_ne_nil _ String.utf8EncodeChar_ne_nil, hb,
      List.getLast?_concat, atEdge, Option.all_some,
      isEdgeByte_of_mem (List.mem_of_getLast? hb)]

/-- The byte behind a place is an edge if the character behind it is one. -/
theorem all_head?_bytes (c : Text) :
    c.bytes.head?.all isEdgeByte = atEdge c.head? := by
  cases c with
  | nil => rfl
  | cons d c =>
    obtain ⟨b, y, hb⟩ :=
      List.exists_cons_of_ne_nil (String.utf8EncodeChar_ne_nil (c := d))
    rw [bytes_cons, hb, List.cons_append, List.head?_cons, List.head?_cons,
      atEdge, Option.all_some]
    exact isEdgeByte_of_mem (by simp [hb])

/-- The byte of a character below 128 occurs in that character only. -/
theorem count_utf8EncodeChar {c : Char} (hc : c.toNat < 128) (d : Char) :
    (String.utf8EncodeChar d).count c.toUInt8 = if d = c then 1 else 0 := by
  by_cases hd : d.toNat < 128
  · have heq : d.toUInt8 = c.toUInt8 ↔ d = c := by
      rw [← UInt8.toNat_inj, toNat_toUInt8 hd, toNat_toUInt8 hc, Char.toNat_inj]
    rw [utf8EncodeChar_ascii hd, List.count_singleton]
    simp only [beq_iff_eq, heq]
  · have hne : d ≠ c := by
      rintro rfl
      exact hd hc
    rw [if_neg hne, List.count_eq_zero]
    intro h
    have := le_of_mem_utf8EncodeChar (Nat.le_of_not_lt hd) _ h
    rw [toNat_toUInt8 hc] at this
    omega

/-- The depth is counted by bytes. -/
theorem depth_eq_count (t : Text) :
    depth t =
      (t.bytes.count '('.toUInt8 : Int) - t.bytes.count ')'.toUInt8 := by
  induction t with
  | nil => rfl
  | cons c t ih =>
    rw [depth_cons, ih, bytes_cons, List.count_append, List.count_append,
      count_utf8EncodeChar (by decide), count_utf8EncodeChar (by decide)]
    by_cases ho : c = '('
    · subst ho
      have hstep : depthStep '(' = 1 := rfl
      simp only [hstep, if_true, Char.reduceEq, if_false]
      omega
    · by_cases hc : c = ')'
      · subst hc
        have hstep : depthStep ')' = -1 := rfl
        simp only [hstep, if_true, Char.reduceEq, if_false]
        omega
      · have hstep : depthStep c = 0 := by simp [depthStep, ho, hc]
        simp only [hstep, ho, hc, if_false]
        omega

/-! ## Offsets of a word -/

/-- The bytes at an offset spell the word, letter case ignored, and the bytes
next to them are edges. -/
structure WordAt (word t : Text) (off : Nat) : Prop where
  spelled : ((t.bytes.drop off).take word.byteSize).map foldByte =
    word.bytes.map foldByte
  before : (t.bytes.take off).getLast?.all isEdgeByte = true
  behind : t.bytes[off + word.byteSize]?.all isEdgeByte = true

instance (word t : Text) (off : Nat) : Decidable (WordAt word t off) :=
  decidable_of_iff (((t.bytes.drop off).take word.byteSize).map foldByte =
    word.bytes.map foldByte ∧
    (t.bytes.take off).getLast?.all isEdgeByte = true ∧
    t.bytes[off + word.byteSize]?.all isEdgeByte = true) ⟨fun ⟨h₁, h₂, h₃⟩ =>
    ⟨h₁, h₂, h₃⟩, fun ⟨h₁, h₂, h₃⟩ => ⟨h₁, h₂, h₃⟩⟩

/-- The offsets at which a word stands. -/
def wordOffsets (word t : Text) : Finset Nat :=
  (Finset.range (t.byteSize + 1)).filter (WordAt word t)

/-- The offsets at which a word stands with equally many opening and closing
brackets before it. -/
def topOffsets (word t : Text) : Finset Nat :=
  (wordOffsets word t).filter fun off =>
    (t.bytes.take off).count '('.toUInt8 = (t.bytes.take off).count ')'.toUInt8

/-- The byte before a part of a text is an edge if the character before it is
one. -/
theorem all_before (a b : Text) :
    ((bytes (a ++ b)).take (byteSize a)).getLast?.all isEdgeByte =
      atEdge a.getLast? := by
  rw [take_bytes_append, all_getLast?_bytes]

/-- The byte behind a part of a text is an edge if the character behind it is
one. -/
theorem all_behind (a m c : Text) (h : m.lower = word.lower) :
    (bytes (a ++ m ++ c))[byteSize a + word.byteSize]?.all isEdgeByte =
      atEdge c.head? := by
  rw [← List.head?_drop, ← byteSize_eq_of_lower_eq h, ← byteSize_append,
    drop_bytes_append, all_head?_bytes]

/-- A part of a text is at the top level if equally many opening and closing
brackets are before it. -/
theorem depth_eq_zero_iff (a b : Text) :
    depth a = 0 ↔ ((bytes (a ++ b)).take (byteSize a)).count '('.toUInt8 =
      ((bytes (a ++ b)).take (byteSize a)).count ')'.toUInt8 := by
  rw [take_bytes_append, depth_eq_count]
  omega

/-- Bytes that spell a word between two edges are characters that do. -/
theorem wordAt_iff (h₀ : word ≠ []) :
    WordAt word t off ↔ ∃ a m c, t = a ++ m ++ c ∧ (m.lower = word.lower ∧
      atEdge a.getLast? = true ∧ atEdge c.head? = true) ∧ byteSize a = off := by
  constructor
  · rintro ⟨hspelled, hbefore, hbehind⟩
    obtain ⟨a, m, c, rfl, hm, rfl⟩ := (spelledAt_iff h₀).1 hspelled
    rw [List.append_assoc, all_before] at hbefore
    rw [all_behind a m c hm] at hbehind
    exact ⟨a, m, c, rfl, ⟨hm, hbefore, hbehind⟩, rfl⟩
  · rintro ⟨a, m, c, rfl, ⟨hm, hleft, hright⟩, rfl⟩
    refine ⟨(spelledAt_iff h₀).2 ⟨a, m, c, rfl, hm, rfl⟩, ?_, ?_⟩
    · rwa [List.append_assoc, all_before]
    · rwa [all_behind a m c hm]

/-- A word stands at an offset if the text before it has that many bytes. -/
theorem mem_wordOffsets (h₀ : word ≠ []) :
    off ∈ wordOffsets word t ↔ ∃ a m c, t = a ++ m ++ c ∧
      (m.lower = word.lower ∧ atEdge a.getLast? = true ∧
      atEdge c.head? = true) ∧ byteSize a = off := by
  rw [wordOffsets, Finset.mem_filter, wordAt_iff h₀, Finset.mem_range,
    and_iff_right_iff_imp]
  rintro ⟨a, m, c, rfl, -, rfl⟩
  rw [byteSize_append, byteSize_append]
  omega

/-- Outside of brackets, a word stands where it stands at the top level. -/
theorem mem_topOffsets (h₀ : word ≠ []) :
    off ∈ topOffsets word t ↔
    ∃ a m c, t = a ++ m ++ c ∧ Stands word a m c ∧ byteSize a = off := by
  rw [topOffsets, Finset.mem_filter, mem_wordOffsets h₀]
  constructor
  · rintro ⟨⟨a, m, c, rfl, ⟨hm, hleft, hright⟩, rfl⟩, hcount⟩
    refine ⟨a, m, c, rfl, ⟨hm, ?_, hleft, hright⟩, rfl⟩
    rwa [depth_eq_zero_iff a (m ++ c), ← List.append_assoc]
  · rintro ⟨a, m, c, rfl, h, rfl⟩
    refine ⟨⟨a, m, c, rfl, ⟨h.spelled, h.left, h.right⟩, rfl⟩, ?_⟩
    rw [List.append_assoc]
    exact (depth_eq_zero_iff a (m ++ c)).1 h.top

/-! ## Places -/

theorem offset_placeAt (a b : Text) :
    offset (a ++ b) (placeAt a b).pos = byteSize a :=
  offset_append a b

/-- The offsets of the places that pass a test, when the test is one for a word
between two parts of the text. -/
theorem exists_place_iff {P : Place → Bool} {Q : Text → Text → Text → Prop}
    (hP : ∀ a b, P (placeAt a b) = true ↔ ∃ m c, b = m ++ c ∧ Q a m c) :
    (∃ p ∈ places t, P p = true ∧ t.offset p.pos = off) ↔
      ∃ a m c, t = a ++ m ++ c ∧ Q a m c ∧ byteSize a = off := by
  constructor
  · rintro ⟨p, hp, hh, rfl⟩
    obtain ⟨a, b, rfl, rfl⟩ := mem_places.1 hp
    obtain ⟨m, c, rfl, h⟩ := (hP a b).1 hh
    exact ⟨a, m, c, by simp, h, (offset_placeAt a (m ++ c)).symm⟩
  · rintro ⟨a, m, c, rfl, h, rfl⟩
    refine ⟨placeAt a (m ++ c), mem_places.2 ⟨a, m ++ c, by simp, rfl⟩,
      (hP a _).2 ⟨m, c, rfl, h⟩, ?_⟩
    rw [List.append_assoc, offset_placeAt]

/-- The offsets of the places of a text ascend. -/
theorem pairwise_offset (t : Text) :
    (places t).Pairwise fun p q => t.offset p.pos < t.offset q.pos := by
  refine (pairwise_placesFrom 0 none 0 t).imp_of_mem ?_
  rintro p q hp hq ⟨x, hx, -, hahead⟩
  obtain ⟨a, b, rfl, rfl⟩ := mem_places.1 hp
  obtain ⟨a', b', hab, rfl⟩ := mem_places.1 hq
  obtain rfl : b = x ++ b' := hahead
  obtain rfl : a ++ x = a' :=
    List.append_cancel_right (by rw [List.append_assoc, hab])
  have := byteSize_pos hx
  rw [offset_placeAt, hab, offset_placeAt, byteSize_append]
  omega

/-! ## Enumerations -/

/-- A search by number answers the elements of a set: in ascending order from
number 1 on, in descending order from number -1 on, and nothing for other
numbers. -/
structure Enumerates (search : Int → Option Nat) (s : Finset Nat) : Prop where
  zero : search 0 = none
  ascending (n : Nat) : search (n + 1) = (s.sort (· ≤ ·))[n]?
  descending (n : Nat) : search (-(n + 1)) = (s.sort (· ≥ ·))[n]?

/-- The elements of an ascending list are enumerated by their numbers in it. -/
theorem enumerates_nth? {xs : List Nat} (h : xs.Pairwise (· < ·)) :
    Enumerates (fun n => nth? n xs) xs.toFinset where
  zero := rfl
  ascending n := by
    rw [(List.toFinset_sort _ h.nodup).2 (h.imp Nat.le_of_lt)]
    rfl
  descending n := by
    have hrev : xs.reverse.Pairwise (· ≥ ·) :=
      List.pairwise_reverse.2 (h.imp Nat.le_of_lt)
    have hsort := (List.toFinset_sort _ (List.nodup_reverse.2 h.nodup)).2 hrev
    rw [List.toFinset_reverse] at hsort
    rw [hsort]
    have hneg : -((n : Int) + 1) = Int.negSucc n := (Int.negSucc_eq n).symm
    simp only [hneg, nth?]

theorem nth?_map {α β : Type} (f : α → β) (n : Int) (xs : List α) :
    nth? n (xs.map f) = (nth? n xs).map f := by
  unfold nth?
  split
  · rfl
  · exact List.getElem?_map
  · rw [← List.map_reverse, List.getElem?_map]

/-- A search among the places that pass a test enumerates their offsets. -/
theorem enumerates_places (P : Place → Bool) (t : Text) {s : Finset Nat}
    (hs : ∀ off, off ∈ s ↔ ∃ p ∈ places t, P p = true ∧ t.offset p.pos = off) :
    Enumerates (fun n => (nth? n ((places t).filter P)).map fun p =>
      t.offset p.pos) s := by
  have hpair :
      (((places t).filter P).map fun p => t.offset p.pos).Pairwise (· < ·) :=
    List.pairwise_map.2 ((pairwise_offset t).filter P)
  have hset :
      (((places t).filter P).map fun p => t.offset p.pos).toFinset = s := by
    ext off
    simp [hs, and_assoc]
  simp only [← nth?_map]
  rw [← hset]
  exact enumerates_nth? hpair

/-! ## Searches -/

theorem ne_nil_of_lower (hw : isPhrase word.lower = true) : word ≠ [] := by
  rintro rfl
  cases hw

/-- The search for a word enumerates its offsets. -/
theorem find_wordOffsets (hw : isPhrase word.lower = true) (t : Text) :
    Enumerates (find t word) (wordOffsets word t) := by
  have h := enumerates_places (Place.holds word) t fun off =>
    (mem_wordOffsets (ne_nil_of_lower hw)).trans
      (exists_place_iff fun _ _ => holds_iff).symm
  rwa [← occurrences_eq hw] at h

/-- The search for a word at the top level enumerates its offsets there. -/
theorem findTop_topOffsets (hw : isPhrase word.lower = true) (t : Text) :
    Enumerates (findTop t word) (topOffsets word t) := by
  have h := enumerates_places (fun p => p.isTop && p.holds word) t fun off =>
    (mem_topOffsets (ne_nil_of_lower hw)).trans
      (exists_place_iff fun _ _ => holds_placeAt).symm
  rwa [← List.filter_filter, ← occurrences_eq hw] at h

/-- The first place of the top level where one of several phrases stands has the
least offset. -/
theorem isLeast_firstPosition {words : List Text}
    (hws : ∀ word ∈ words, isPhrase word.lower = true)
    {t : Text} {pos : Nat} (h : firstPosition? words t = some pos) :
    IsLeast {off | ∃ word ∈ words, off ∈ topOffsets word t} (t.offset pos) := by
  obtain ⟨a, m, c, rfl, rfl, ⟨word, hword, hs⟩, habs⟩ :=
    firstPosition?_eq_some_iff.1 h
  have hoff : offset (a ++ m ++ c) a.length = byteSize a := by
    rw [List.append_assoc]
    exact offset_append a (m ++ c)
  rw [hoff]
  refine ⟨⟨word, hword, (mem_topOffsets (ne_nil_of_lower (hws word hword))).2
    ⟨a, m, c, rfl, hs, rfl⟩⟩, ?_⟩
  rintro off ⟨v, hv, hmem⟩
  obtain ⟨u, n, r, e, hn, rfl⟩ :=
    (mem_topOffsets (ne_nil_of_lower (hws v hv))).1 hmem
  refine Nat.le_of_not_lt fun hlt => ?_
  rw [List.append_assoc, List.append_assoc] at e
  obtain ⟨x, hx, rfl⟩ := exists_append_of_byteSize_lt e.symm hlt
  rw [List.append_assoc] at e
  exact habs v hv u x n r rfl hx (List.append_cancel_left e) hn

/-- Searches for a word enumerate the offsets at which it stands, and the first
of several words stands at the least of their offsets. -/
theorem find_enumerates (t : Text) :
    (∀ word, word.lower ∈ soughtWords →
      Enumerates (find t word) (wordOffsets word t) ∧
      Enumerates (findTop t word) (topOffsets word t)) ∧
    ∀ words : List Text, (∀ word ∈ words, word.lower ∈ soughtWords) →
      ∀ off, (firstPosition? words t).map t.offset = some off ↔
      IsLeast {off | ∃ word ∈ words, off ∈ topOffsets word t} off := by
  refine ⟨fun word hmem => ?_, fun words hmem off => ?_⟩
  · have hw := isPhrase_of_mem_soughtWords hmem
    exact ⟨find_wordOffsets hw t, findTop_topOffsets hw t⟩
  · have hws : ∀ word ∈ words, isPhrase word.lower = true :=
      fun word hword => isPhrase_of_mem_soughtWords (hmem word hword)
    constructor
    · intro h
      obtain ⟨pos, hpos, rfl⟩ := Option.map_eq_some_iff.1 h
      exact isLeast_firstPosition hws hpos
    · intro hleast
      cases hpos : firstPosition? words t with
      | some pos =>
        rw [Option.map_some, (isLeast_firstPosition hws hpos).unique hleast]
      | none =>
        obtain ⟨word, hword, hoff⟩ := hleast.1
        obtain ⟨a, m, c, rfl, hs, rfl⟩ :=
          (mem_topOffsets (ne_nil_of_lower (hws word hword))).1 hoff
        exact absurd hs (firstPosition?_eq_none_iff.1 hpos word hword a m c rfl)

/-- Spellings in all cases stand behind characters of two bytes, inside of
brackets, and behind a bracket that closes too early. -/
theorem find_mixed_case :
    let t : Text := "é Or (OR or) ÖR or) OR".toList
    Enumerates (find t "oR".toList) {3, 7, 10, 18, 22} ∧
        Enumerates (findTop t "oR".toList) {3, 18} ∧
        IsLeast {off | ∃ word ∈ ["And".toList, "oR".toList],
        off ∈ topOffsets word t} 3 := by
  intro t
  have hall : wordOffsets "oR".toList t = {3, 7, 10, 18, 22} := by
    decide +kernel
  have htop : topOffsets "oR".toList t = {3, 18} := by decide +kernel
  obtain ⟨hfind, hfirst⟩ := find_enumerates t
  obtain ⟨h, h'⟩ := hfind "oR".toList (by decide)
  refine ⟨hall ▸ h, htop ▸ h', (hfirst _ ?_ 3).1 (by decide)⟩
  decide

end SqlRiver
