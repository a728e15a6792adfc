import SqlRiver.Proofs.Text.Case
import SqlRiver.Text.Offset

/-!
# Bytes of texts

An offset counts bytes, while every scan of this library goes from character to
character. The two come to the same place because of two properties of UTF-8. A
byte that may start a character stands nowhere inside of one, so the place
before it lies between two characters. And the characters of ASCII, of which
keywords, brackets and their edges are made, are single bytes that are part of
no other character.

Main definitions and statements:

* `Text.bytes`, `Text.exists_bytes_prefix`, `Text.bytes_inj`: the bytes of a
  text, which determine it.
* `foldByte`, `Text.bytes_lower`: letter case of bytes.
* `position?_eq_some_iff`: a byte offset between two parts of a text.
* `exists_cut`: a place before the first byte of a character lies between two
  characters.
* `exists_cons_ascii`, `getElem?_bytes_iff`: bytes of ASCII are characters.
* `OnBoundary`, `onBoundary_iff`: offsets between two characters.
* `SpelledAt`, `spelledAt_iff`: bytes that spell a word are characters that do,
  also where the word is not of ASCII.
-/

namespace SqlRiver

variable {c : Char} {t u : Text} {x y : List UInt8}

/-! ## Characters -/

/-- A character of ASCII is one byte. -/
theorem utf8EncodeChar_ascii (h : c.toNat < 128) :
    String.utf8EncodeChar c = [c.toUInt8] := by
  have hv : c.val.toNat ≤ 0x7f := Nat.le_of_lt_succ h
  rw [String.utf8EncodeChar, if_pos hv]
  rfl

theorem toNat_toUInt8 (h : c.toNat < 128) : c.toUInt8.toNat = c.toNat := by
  have hv : c.val.toNat < 2 ^ 8 := by
    have : c.val.toNat < 128 := h
    omega
  show c.val.toUInt8.toNat = c.val.toNat
  rw [UInt32.toNat_toUInt8, Nat.mod_eq_of_lt hv]

/-- No byte of another character is a byte of ASCII. -/
theorem le_of_mem_utf8EncodeChar (h : 128 ≤ c.toNat) :
    ∀ b ∈ String.utf8EncodeChar c, 128 ≤ b.toNat := by
  have hv : ¬ c.val.toNat ≤ 0x7f := by
    have : 128 ≤ c.val.toNat := h
    omega
  intro b hb
  rw [String.utf8EncodeChar, if_neg hv] at hb
  split at hb
  · simp only [List.mem_cons, List.not_mem_nil, or_false] at hb
    rcases hb with rfl | rfl <;> simp only [UInt8.toNat_ofNat'] <;> omega
  · split at hb
    · simp only [List.mem_cons, List.not_mem_nil, or_false] at hb
      rcases hb with
        rfl | rfl | rfl <;> simp only [UInt8.toNat_ofNat'] <;> omega
    · simp only [List.mem_cons, List.not_mem_nil, or_false] at hb
      rcases hb with
        rfl | rfl | rfl | rfl <;> simp only [UInt8.toNat_ofNat'] <;> omega

/-- A byte of ASCII starts a character. -/
theorem isUTF8FirstByte_of_lt {b : UInt8} (h : b.toNat < 128) :
    b.IsUTF8FirstByte := by
  have key : ∀ n < 128, UInt8.ofNat n &&& 0x80 = 0 := by decide
  have hb := key b.toNat h
  rw [UInt8.ofNat_toNat] at hb
  exact .inl hb

/-! ## Letter case -/

/-- The byte in lower case, when it is a capital letter of ASCII. -/
def foldByte (b : UInt8) : UInt8 :=
  if 65 ≤ b.toNat ∧ b.toNat ≤ 90 then b + 32 else b

/-- A byte of a capital letter is folded to that of the small one, and no other
byte is changed. -/
theorem toNat_foldByte (b : UInt8) :
    (foldByte b).toNat = if 65 ≤ b.toNat ∧ b.toNat ≤ 90 then
      b.toNat + 32 else b.toNat := by
  unfold foldByte
  split
  · rw [UInt8.toNat_add]
    simp only [UInt8.reduceToNat]
    omega
  · rfl

/-- The bytes of a character in lower case are its folded bytes. -/
theorem utf8EncodeChar_toLower (c : Char) :
    String.utf8EncodeChar c.toLower =
      (String.utf8EncodeChar c).map foldByte := by
  have hlower := toNat_toLower c
  by_cases h : c.toNat < 128
  · have h' : c.toLower.toNat < 128 := by
      rw [hlower]
      split <;> omega
    rw [utf8EncodeChar_ascii h, utf8EncodeChar_ascii h', List.map_singleton,
      List.singleton_inj, ← UInt8.toNat_inj, toNat_foldByte, toNat_toUInt8 h,
      toNat_toUInt8 h', hlower]
  · have hc : c.toLower = c := by
      rw [← Char.toNat_inj, hlower, if_neg (by omega)]
    rw [hc]
    refine ((List.map_congr_left fun b hb => ?_).trans (List.map_id _)).symm
    have := le_of_mem_utf8EncodeChar (Nat.le_of_not_lt h) b hb
    rw [foldByte, if_neg (by omega)]
    rfl

/-! ## Texts -/

namespace Text

/-- The bytes of a text in UTF-8. -/
def bytes (t : Text) : List UInt8 := t.flatMap String.utf8EncodeChar

@[simp] theorem bytes_nil : bytes [] = [] := rfl

@[simp] theorem bytes_cons (c : Char) (t : Text) :
    bytes (c :: t) = String.utf8EncodeChar c ++ bytes t :=
  List.flatMap_cons

@[simp] theorem bytes_append (t u : Text) :
    bytes (t ++ u) = bytes t ++ bytes u :=
  List.flatMap_append

theorem length_bytes : ∀ t : Text, (bytes t).length = byteSize t
  | [] => rfl
  | c :: t => by
    rw [bytes_cons, List.length_append, String.length_utf8EncodeChar,
      length_bytes t, byteSize]

theorem byteSize_append (t u : Text) :
    byteSize (t ++ u) = byteSize t + byteSize u := by
  rw [← length_bytes, bytes_append, List.length_append, length_bytes,
    length_bytes]

/-- The bytes before the place between two texts. -/
theorem take_bytes_append (a b : Text) :
    (bytes (a ++ b)).take (byteSize a) = bytes a := by
  rw [bytes_append, ← length_bytes, List.take_left]

/-- The bytes behind the place between two texts. -/
theorem drop_bytes_append (a b : Text) :
    (bytes (a ++ b)).drop (byteSize a) = bytes b := by
  rw [bytes_append, ← length_bytes, List.drop_left]

/-- The offset of the place between two texts. -/
theorem offset_append (a b : Text) : offset (a ++ b) a.length = byteSize a := by
  rw [offset, List.take_left]

/-- The bytes of a text in lower case are its folded bytes. -/
theorem bytes_lower (t : Text) : bytes (lower t) = (bytes t).map foldByte := by
  induction t with
  | nil => rfl
  | cons c t ih =>
    rw [lower_cons, bytes_cons, bytes_cons, List.map_append,
      utf8EncodeChar_toLower, ih]

/-- A text whose bytes start with those of another one starts with that one. -/
theorem exists_bytes_prefix :
    ∀ {m t : Text} {y : List UInt8}, bytes t = bytes m ++ y →
      ∃ u, t = m ++ u ∧ bytes u = y
  | [], t, y, h => ⟨t, rfl, h⟩
  | c :: m, [], y, h => by
    rw [bytes_nil, bytes_cons, List.append_assoc] at h
    exact absurd (List.append_eq_nil_iff.1 h.symm).1
      String.utf8EncodeChar_ne_nil
  | c :: m, d :: t, y, h => by
    rw [bytes_cons, bytes_cons, List.append_assoc] at h
    -- decoding the bytes gives back the first character
    have hdecode : ∀ (e : Char) (z : List UInt8), ByteArray.utf8DecodeChar?
        (String.utf8EncodeChar e ++ z).toByteArray 0 = some e := by
      intro e z
      rw [List.toByteArray_append,
        ByteArray.utf8DecodeChar?_utf8EncodeChar_append]
    obtain rfl : d = c :=
      Option.some.inj ((hdecode d _).symm.trans (h ▸ hdecode c _))
    obtain ⟨u, rfl, hu⟩ := exists_bytes_prefix (List.append_cancel_left h)
    exact ⟨u, rfl, hu⟩

/-- Texts of the same bytes are equal. -/
theorem bytes_inj {t u : Text} : bytes t = bytes u ↔ t = u := by
  constructor
  · intro h
    obtain ⟨v, rfl, hv⟩ :=
      exists_bytes_prefix (m := u) (y := []) (by rw [h, List.append_nil])
    cases v with
    | nil => rw [List.append_nil]
    | cons c v =>
      exact absurd (List.append_eq_nil_iff.1 hv).1 String.utf8EncodeChar_ne_nil
  · intro h
    rw [h]

theorem byteSize_pos (h : t ≠ []) : 0 < byteSize t := by
  obtain ⟨c, t, rfl⟩ := List.exists_cons_of_ne_nil h
  have := c.utf8Size_pos
  rw [byteSize]
  omega

/-- Two cuts of a text at one offset are the same. -/
theorem eq_of_byteSize_eq {a b u v : Text} (h : a ++ u = b ++ v)
    (hsize : byteSize a = byteSize b) : a = b := by
  have happ : bytes a ++ bytes u = bytes b ++ bytes v := by
    rw [← bytes_append, ← bytes_append, h]
  have hbytes : bytes a = bytes b :=
    (List.append_inj happ (by rw [length_bytes, length_bytes, hsize])).1
  exact bytes_inj.1 hbytes

/-- Of two cuts of a text, the later one has all characters of the earlier one
before it. -/
theorem exists_append_of_byteSize_le {a b u v : Text} (h : a ++ u = b ++ v)
    (hsize : byteSize a ≤ byteSize b) : ∃ x, b = a ++ x := by
  rcases List.append_eq_append_iff.1 h with ⟨x, rfl, -⟩ | ⟨x, rfl, -⟩
  · exact ⟨x, rfl⟩
  · cases x with
    | nil => exact ⟨[], by rw [List.append_nil, List.append_nil]⟩
    | cons c x =>
      have := byteSize_pos (t := c :: x) (by simp)
      rw [byteSize_append] at hsize
      omega

/-- Where two cuts of a text differ in their offsets, more characters are before
the later one. -/
theorem exists_append_of_byteSize_lt {a b u v : Text} (h : a ++ u = b ++ v)
    (hsize : byteSize a < byteSize b) : ∃ x, x ≠ [] ∧ b = a ++ x := by
  obtain ⟨x, rfl⟩ := exists_append_of_byteSize_le h (Nat.le_of_lt hsize)
  refine ⟨x, ?_, rfl⟩
  rintro rfl
  simp at hsize

theorem position?_zero (t : Text) : position? t 0 = some 0 := by
  cases t <;> rfl

theorem position?_cons {off : Nat} (c : Char) (t : Text) (h : 0 < off) :
    position? (c :: t) off = if c.utf8Size ≤ off then
      (position? t (off - c.utf8Size)).map (· + 1) else none := by
  obtain ⟨n, rfl⟩ := Nat.exists_eq_succ_of_ne_zero (Nat.ne_of_gt h)
  rfl

/-- The position of the offset behind a text is its length. -/
theorem position?_append :
    ∀ a b : Text, position? (a ++ b) (byteSize a) = some a.length
  | [], b => position?_zero b
  | c :: a, b => by
    have hc := c.utf8Size_pos
    have hle : c.utf8Size ≤ byteSize (c :: a) := Nat.le_add_right _ _
    have hsize : byteSize (c :: a) - c.utf8Size = byteSize a := by
      rw [byteSize, Nat.add_sub_cancel_left]
    rw [List.cons_append, position?_cons c _ (by omega), if_pos hle, hsize,
      position?_append a b]
    rfl

/-- An offset with a position divides the text. -/
theorem exists_of_position? :
    ∀ {t : Text} {off pos : Nat}, position? t off = some pos →
      ∃ a b, t = a ++ b ∧ a.length = pos ∧ byteSize a = off
  | t, 0, pos, h => by
    obtain rfl : 0 = pos := Option.some.inj ((position?_zero t).symm.trans h)
    exact ⟨[], t, rfl, rfl, rfl⟩
  | [], off + 1, pos, h => by cases h
  | c :: t, off + 1, pos, h => by
    rw [position?_cons c t (Nat.succ_pos off)] at h
    split at h
    · next hle =>
      obtain ⟨_, hpos, rfl⟩ := Option.map_eq_some_iff.1 h
      obtain ⟨a, b, rfl, rfl, ha⟩ := exists_of_position? hpos
      exact ⟨c :: a, b, rfl, rfl, by rw [byteSize, ha]; omega⟩
    · cases h

/-- A byte offset between two parts of a text is the position between them. -/
theorem position?_eq_some_iff {off pos : Nat} :
    position? t off = some pos ↔
    ∃ a b, t = a ++ b ∧ a.length = pos ∧ byteSize a = off := by
  constructor
  · exact exists_of_position?
  · rintro ⟨a, b, rfl, rfl, rfl⟩
    exact position?_append a b

end Text

/-! ## Cuts -/

open Text

/-- A place before the first byte of a character, or at the end, lies between
two characters. -/
theorem exists_cut :
    ∀ {t : Text} {x y : List UInt8}, bytes t = x ++ y →
      (∀ b ∈ y.head?, b.IsUTF8FirstByte) →
      ∃ a b, t = a ++ b ∧ bytes a = x ∧ bytes b = y
  | [], x, y, h, _ => by
    obtain ⟨rfl, rfl⟩ := List.append_eq_nil_iff.1 h.symm
    exact ⟨[], [], rfl, rfl, rfl⟩
  | c :: t, x, y, h, hy => by
    rw [bytes_cons] at h
    rcases List.append_eq_append_iff.1 h with ⟨z, rfl, hz⟩ | ⟨z, hz, rfl⟩
    · obtain ⟨a, b, rfl, rfl, rfl⟩ := exists_cut hz hy
      exact ⟨c :: a, b, rfl, bytes_cons c a, rfl⟩
    · by_cases hx : x = []
      · subst hx
        exact ⟨[], c :: t, rfl, rfl, by rw [bytes_cons, hz, List.nil_append]⟩
      cases z with
      | nil => exact ⟨[c], t, rfl, by simpa using hz, by simp⟩
      | cons b z =>
        -- a byte inside of a character is none that starts one
        have hb := hy b rfl
        have hi : x.length < (String.utf8EncodeChar c).length := by simp [hz]
        have hget : (String.utf8EncodeChar c)[x.length] = b := by simp [hz]
        rw [← hget, UInt8.isUTF8FirstByte_getElem_utf8EncodeChar,
          List.length_eq_zero_iff] at hb
        exact absurd hb hx

/-- A text whose first byte is one of ASCII starts with the character that this
byte is. -/
theorem exists_cons_ascii {b : UInt8} (h : bytes t = b :: y)
    (hb : b.toNat < 128) :
    ∃ c u, t = c :: u ∧ c.toNat = b.toNat ∧ bytes u = y := by
  cases t with
  | nil => cases h
  | cons c u =>
    rw [bytes_cons] at h
    have hc : c.toNat < 128 := by
      refine Nat.lt_of_not_le fun hc => ?_
      obtain ⟨d, z, hz⟩ :=
        List.exists_cons_of_ne_nil (String.utf8EncodeChar_ne_nil (c := c))
      have hle := le_of_mem_utf8EncodeChar hc d (by simp [hz])
      rw [hz] at h
      obtain ⟨rfl, -⟩ := List.cons.inj h
      omega
    rw [utf8EncodeChar_ascii hc] at h
    obtain ⟨rfl, hu⟩ := List.cons.inj h
    exact ⟨c, u, rfl, (toNat_toUInt8 hc).symm, hu⟩

/-- At a byte of ASCII stands the character that this byte is. -/
theorem exists_ascii_at {b : UInt8} {off : Nat} (h : (bytes t)[off]? = some b)
    (hb : b.toNat < 128) :
    ∃ a c u, t = a ++ c :: u ∧ c.toNat = b.toNat ∧ byteSize a = off := by
  obtain ⟨hoff, hget⟩ := List.getElem?_eq_some_iff.1 h
  have hdrop : (bytes t).drop off = b :: (bytes t).drop (off + 1) := by
    rw [List.drop_eq_getElem_cons hoff, hget]
  have hcut : bytes t = (bytes t).take off ++ (bytes t).drop off :=
    (List.take_append_drop _ _).symm
  obtain ⟨a, r, rfl, ha, hr⟩ :=
    exists_cut hcut (by simp [hdrop, isUTF8FirstByte_of_lt hb])
  rw [hdrop] at hr
  obtain ⟨c, u, rfl, hc, -⟩ := exists_cons_ascii hr hb
  refine ⟨a, c, u, rfl, hc, ?_⟩
  rw [← length_bytes, ha, List.length_take, Nat.min_eq_left (Nat.le_of_lt hoff)]

/-- A byte of ASCII at an offset of a text is the character there. -/
theorem getElem?_bytes_iff (hc : c.toNat < 128) {off : Nat} :
    (bytes t)[off]? = some c.toUInt8 ↔
    ∃ a b, t = a ++ c :: b ∧ byteSize a = off := by
  constructor
  · intro h
    obtain ⟨a, d, u, rfl, hd, ha⟩ :=
      exists_ascii_at h (by rwa [toNat_toUInt8 hc])
    obtain rfl : d = c := Char.toNat_inj.1 (hd.trans (toNat_toUInt8 hc))
    exact ⟨a, u, rfl, ha⟩
  · rintro ⟨a, b, rfl, rfl⟩
    rw [bytes_append, bytes_cons, utf8EncodeChar_ascii hc, ← length_bytes]
    simp

/-! ## Boundaries -/

/-- An offset that lies inside of no character: it is not behind the end, and
the byte there, if there is one, starts a character. -/
structure OnBoundary (t : Text) (off : Nat) : Prop where
  le : off ≤ t.byteSize
  first : ∀ b ∈ t.bytes[off]?, b.IsUTF8FirstByte

/-- The first byte of a text starts a character. -/
theorem isUTF8FirstByte_head {b : UInt8} (h : (bytes t).head? = some b) :
    b.IsUTF8FirstByte := by
  cases t with
  | nil => cases h
  | cons c t =>
    have hpos := List.length_pos_iff.2 (String.utf8EncodeChar_ne_nil (c := c))
    rw [bytes_cons, List.head?_append, List.head?_eq_getElem?,
      List.getElem?_eq_getElem hpos] at h
    obtain rfl : (String.utf8EncodeChar c)[0] = b := Option.some.inj h
    exact UInt8.isUTF8FirstByte_getElem_utf8EncodeChar.2 rfl

theorem onBoundary_append (a b : Text) : OnBoundary (a ++ b) (byteSize a) := by
  refine ⟨by rw [byteSize_append]; omega, fun d hd => ?_⟩
  rw [← List.head?_drop, drop_bytes_append] at hd
  exact isUTF8FirstByte_head hd

/-- An offset on a boundary divides a text into two texts. -/
theorem onBoundary_iff {off : Nat} :
    OnBoundary t off ↔ ∃ a b, t = a ++ b ∧ byteSize a = off := by
  constructor
  · rintro ⟨hle, hfirst⟩
    rw [← List.head?_drop] at hfirst
    obtain ⟨a, b, rfl, ha, -⟩ :=
      exists_cut (List.take_append_drop off (bytes t)).symm hfirst
    refine ⟨a, b, rfl, ?_⟩
    rw [← length_bytes a, ha, List.length_take, length_bytes,
      Nat.min_eq_left hle]
  · rintro ⟨a, b, rfl, rfl⟩
    exact onBoundary_append a b

/-! ## Spellings -/

/-- The bytes of a text at an offset spell a word, letter case ignored. -/
def SpelledAt (word t : Text) (off : Nat) : Prop :=
  ((t.bytes.drop off).take word.byteSize).map foldByte = word.bytes.map foldByte

instance (word t : Text) (off : Nat) : Decidable (SpelledAt word t off) :=
  inferInstanceAs (Decidable (_ = _))

/-- A byte starts a character if its folded form does. -/
theorem isUTF8FirstByte_of_foldByte {b : UInt8}
    (h : (foldByte b).IsUTF8FirstByte) : b.IsUTF8FirstByte := by
  unfold foldByte at h
  split at h
  · exact isUTF8FirstByte_of_lt (by omega)
  · exact h

/-- Texts that agree but for letter case have as many bytes. -/
theorem byteSize_eq_of_lower_eq {m word : Text} (h : m.lower = word.lower) :
    m.byteSize = word.byteSize := by
  rw [← length_bytes, ← length_bytes, ← List.length_map foldByte, ← bytes_lower,
    h, bytes_lower, List.length_map]

/-- Bytes that spell a word are characters that do. -/
theorem spelledAt_iff {word : Text} (h₀ : word ≠ []) {off : Nat} :
    SpelledAt word t off ↔
    ∃ a m c, t = a ++ m ++ c ∧ m.lower = word.lower ∧ byteSize a = off := by
  constructor
  · intro h
    have hfold : ((bytes t).drop off).map foldByte = bytes word.lower ++
        ((bytes t).drop (off + word.byteSize)).map foldByte := by
      rw [bytes_lower, ← h, ← List.map_append, ← List.drop_drop,
        List.take_append_drop]
    have hne : bytes word.lower ≠ [] := by
      rw [← bytes_nil, Ne, bytes_inj]
      simpa [lower] using h₀
    obtain ⟨b, y, hb⟩ := List.exists_cons_of_ne_nil hne
    -- the word starts with the first byte of a character, so the offset lies
    -- between two characters
    have hhead : ((bytes t).drop off).head?.map foldByte = some b := by
      rw [← List.head?_map, hfold, hb]
      rfl
    obtain ⟨d, hd, rfl⟩ := Option.map_eq_some_iff.1 hhead
    have hfirst : d.IsUTF8FirstByte := isUTF8FirstByte_of_foldByte
      (isUTF8FirstByte_head (t := word.lower) (by rw [hb]; rfl))
    have hlt : off < (bytes t).length := by
      rw [List.head?_drop] at hd
      exact (List.getElem?_eq_some_iff.1 hd).1
    rw [length_bytes] at hlt
    obtain ⟨a, r, rfl, rfl⟩ := onBoundary_iff.1
      ⟨Nat.le_of_lt hlt, by rw [← List.head?_drop, hd]; simpa using hfirst⟩
    rw [drop_bytes_append, ← bytes_lower] at hfold
    obtain ⟨u, hu, -⟩ := exists_bytes_prefix hfold
    obtain ⟨m, c, rfl, hm, -⟩ := List.map_eq_append_iff.1 hu
    exact ⟨a, m, c, by simp, hm, rfl⟩
  · rintro ⟨a, m, c, rfl, hm, rfl⟩
    rw [SpelledAt, List.append_assoc, drop_bytes_append,
      ← byteSize_eq_of_lower_eq hm, take_bytes_append, ← bytes_lower, hm,
      bytes_lower]

end SqlRiver
