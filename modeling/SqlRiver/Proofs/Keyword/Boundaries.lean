import SqlRiver.Proofs.Bracket.Partners
import SqlRiver.Proofs.Split.Cuts

/-!
# Scans and boundaries

A scan may read a text byte by byte and know nothing of characters. What it
answers is an offset at which bytes have been compared, and to slice the text
there is safe only if no character is cut apart. Here each scan is put next to
what it would answer on the bytes alone, for all words, those that are not of
ASCII or that overlap themselves included. The two are the same, and so all
answers lie on boundaries: a word starts with a byte that starts a character, a
letter and its capital have as many bytes, and brackets, spaces and commas are
part of no other character.

Main definitions and statements:

* `spelledOffsets`, `wholeOffsets`, `topWholeOffsets`: a search for a word in
  bytes.
* `offsets_occurrences`: a search among characters passes over the same
  overlaps.
* `TopByteAt`, `isLeast_topPosition`: the first byte of a kind outside of
  brackets.
* `ScansBytes`, `AnswersBoundaries`: all scans of a text.
* `scans_onBoundary`: scans answer what they answer on bytes, and this is on
  boundaries.
-/

namespace SqlRiver

open Text

variable {word t : Text} {off : Nat}

/-! ## Words in bytes -/

/-- Of ascending offsets, those that are not inside of the bytes behind an
offset that is kept before. -/
def clearOf (size : Nat) : Nat → List Nat → List Nat
  | _, [] => []
  | least, off :: rest =>
    if off < least then
      clearOf size least rest else off :: clearOf size (off + size) rest

/-- The offsets at which bytes spell a word, from left to right without
overlaps; none for the empty word. -/
def spelledOffsets (word t : Text) : List Nat :=
  if word.isEmpty then [] else clearOf word.byteSize 0
    ((List.range (t.byteSize + 1)).filter (SpelledAt word t))

/-- Those of them with edges next to the bytes. -/
def wholeOffsets (word t : Text) : List Nat :=
  (spelledOffsets word t).filter (WordAt word t)

/-- Those of them with equally many opening and closing brackets before the
bytes. -/
def topWholeOffsets (word t : Text) : List Nat :=
  (wholeOffsets word t).filter fun off =>
    (t.bytes.take off).count '('.toUInt8 = (t.bytes.take off).count ')'.toUInt8

/-- Offsets in bytes are ordered like positions. -/
theorem offset_lt_iff {i j : Nat} (hi : i ≤ t.length) (hj : j ≤ t.length) :
    t.offset i < t.offset j ↔ i < j := by
  have key {i j : Nat} (h : i < j) (hj : j ≤ t.length) :
      t.offset i < t.offset j := by
    obtain ⟨n, rfl⟩ := Nat.exists_eq_add_of_lt h
    have hx : (t.drop i).take (n + 1) ≠ [] := by
      rw [Ne, ← List.length_eq_zero_iff, List.length_take, List.length_drop]
      omega
    have := byteSize_pos hx
    rw [offset, offset, Nat.add_assoc, List.take_add, byteSize_append]
    omega
  constructor
  · intro h
    rcases Nat.lt_trichotomy i j with hlt | rfl | hlt
    · exact hlt
    · omega
    · have := key hlt hi
      omega
  · intro h
    exact key h hj

/-- The places where a word is spelled have the offsets where bytes spell it. -/
theorem offsets_spells (h₀ : word ≠ []) (t : Text) :
    ((places t).filter (Place.spells word)).map (fun p => t.offset p.pos) =
      (List.range (t.byteSize + 1)).filter (SpelledAt word t) := by
  have hplaces :=
    List.pairwise_map.2 ((pairwise_offset t).filter (Place.spells word))
  have hrange := (List.pairwise_lt_range (n := t.byteSize + 1)).filter
    fun off => decide (SpelledAt word t off)
  refine hplaces.eq_of_mem_iff hrange fun off => ?_
  have hspells (a b : Text) : (placeAt a b).spells word = true ↔
      ∃ m c, b = m ++ c ∧ m.lower = word.lower := leads_iff
  simp only [List.mem_map, List.mem_filter, and_assoc, exists_place_iff hspells,
    List.mem_range, decide_eq_true_eq, spelledAt_iff h₀]
  rw [iff_and_self]
  rintro ⟨a, m, c, rfl, -, rfl⟩
  rw [byteSize_append, byteSize_append]
  omega

/-- The places that are kept apart are among the places. -/
theorem mem_of_mem_apart {n : Nat} {p : Place} :
    ∀ {least : Nat} {ps : List Place}, p ∈ apart n least ps → p ∈ ps
  | _, [], h => h
  | least, q :: ps, h => by
    rw [apart] at h
    split at h
    · exact List.mem_cons_of_mem q (mem_of_mem_apart h)
    · rcases List.mem_cons.1 h with rfl | h
      · exact List.mem_cons_self
      · exact List.mem_cons_of_mem q (mem_of_mem_apart h)

/-- Overlaps are the same in characters and in bytes, since a spelling has as
many of both as the word. -/
theorem clearOf_offsets {least : Nat} {ps : List Place}
    (h : ∀ p ∈ ps, p ∈ places t ∧ p.spells word = true)
    (hle : least ≤ t.length) :
    clearOf word.byteSize (t.offset least) (ps.map fun p => t.offset p.pos) =
      (apart word.length least ps).map fun p => t.offset p.pos := by
  induction ps generalizing least with
  | nil => rfl
  | cons p ps ih =>
    obtain ⟨⟨hp, hspells⟩, hps⟩ := List.forall_mem_cons.1 h
    obtain ⟨a, b, rfl, rfl⟩ := mem_places.1 hp
    obtain ⟨m, c, rfl, hm⟩ := leads_iff.1 hspells
    have hpos : (placeAt a (m ++ c)).pos ≤ (a ++ (m ++ c)).length := by
      simp [placeAt]
    have hiff := offset_lt_iff hpos hle
    rw [List.map_cons, clearOf, apart]
    by_cases hlt : (placeAt a (m ++ c)).pos < least
    · rw [if_pos hlt, if_pos (hiff.2 hlt), ih hps hle]
    · have hnext :
          (placeAt a (m ++ c)).pos + word.length = (a ++ m).length := by
        rw [List.length_append, length_eq_of_lower_eq hm]
        rfl
      have hend : offset (a ++ (m ++ c)) (placeAt a (m ++ c)).pos +
          word.byteSize = offset (a ++ (m ++ c)) (a ++ m).length := by
        rw [offset_placeAt, ← byteSize_eq_of_lower_eq hm, ← byteSize_append,
          ← List.append_assoc, offset_append]
      rw [if_neg hlt, if_neg (mt hiff.1 hlt), List.map_cons, hnext, hend,
        ih hps (by simp)]

/-- Bytes and characters agree on the edges of a word. -/
theorem wordAt_offset_iff (h₀ : word ≠ []) {p : Place} (hp : p ∈ places t) :
    WordAt word t (t.offset p.pos) ↔ p.holds word = true := by
  obtain ⟨a, b, rfl, rfl⟩ := mem_places.1 hp
  rw [offset_placeAt, wordAt_iff h₀, holds_iff]
  constructor
  · rintro ⟨a', m, c, e, h, hsize⟩
    rw [List.append_assoc] at e
    obtain rfl := eq_of_byteSize_eq e hsize.symm
    exact ⟨m, c, List.append_cancel_left e, h⟩
  · rintro ⟨m, c, rfl, h⟩
    exact ⟨a, m, c, (List.append_assoc a m c).symm, h, rfl⟩

/-- Bytes and characters agree on the top level. -/
theorem isTop_iff {p : Place} (hp : p ∈ places t) :
    p.isTop = true ↔ (t.bytes.take (t.offset p.pos)).count '('.toUInt8 =
      (t.bytes.take (t.offset p.pos)).count ')'.toUInt8 := by
  obtain ⟨a, b, rfl, rfl⟩ := mem_places.1 hp
  rw [offset_placeAt, ← depth_eq_zero_iff]
  exact beq_iff_eq

theorem mem_spellings {p : Place} (hp : p ∈ spellings word t) :
    p ∈ places t ∧ p.spells word = true := by
  unfold spellings at hp
  split at hp
  · cases hp
  · exact List.mem_filter.1 (mem_of_mem_apart hp)

/-- The spellings of a word start at the offsets at which its bytes stand. -/
theorem offsets_spellings (word t : Text) :
    (spellings word t).map (fun p => t.offset p.pos) =
      spelledOffsets word t := by
  unfold spellings spelledOffsets
  split
  · rfl
  · next h =>
    have h₀ : word ≠ [] := by simpa using h
    have hspelled : ∀ p ∈ (places t).filter (Place.spells word), p ∈ places t ∧
        p.spells word = true :=
      fun p hp => List.mem_filter.1 hp
    have hclear := clearOf_offsets hspelled (Nat.zero_le t.length)
    rw [← offsets_spells h₀]
    exact hclear.symm

/-- A search for a word finds the same offsets among characters and among
bytes. -/
theorem offsets_occurrences (word t : Text) :
    (occurrences word t).map (fun p => t.offset p.pos) = wholeOffsets word t ∧
    (topOccurrences word t).map (fun p => t.offset p.pos) =
      topWholeOffsets word t := by
  have hwhole : (occurrences word t).map (fun p => t.offset p.pos) =
      wholeOffsets word t := by
    rw [occurrences, wholeOffsets, ← offsets_spellings, List.filter_map]
    refine congrArg _ (List.filter_congr fun p hp => ?_)
    obtain ⟨hplace, hspells⟩ := mem_spellings hp
    have h₀ : word ≠ [] := by
      rintro rfl
      cases hp
    rw [Bool.eq_iff_iff, Function.comp_apply, decide_eq_true_iff,
      wordAt_offset_iff h₀ hplace, Place.holds, hspells, Bool.true_and]
  refine ⟨hwhole, ?_⟩
  rw [topOccurrences, topWholeOffsets, ← hwhole, List.filter_map]
  refine congrArg _ (List.filter_congr fun p hp => ?_)
  have hplace := (mem_spellings (List.mem_filter.1 hp).1).1
  rw [Bool.eq_iff_iff, Function.comp_apply, decide_eq_true_iff,
    isTop_iff hplace]

/-- What a signed ordinal chooses is a member. -/
theorem mem_of_nth? {α : Type} {n : Int} {xs : List α} {x : α}
    (h : nth? n xs = some x) : x ∈ xs := by
  unfold nth? at h
  split at h
  · cases h
  · exact List.mem_of_getElem? h
  · exact List.mem_reverse.1 (List.mem_of_getElem? h)

/-- A word starts and ends on boundaries. -/
theorem onBoundary_of_mem_wholeOffsets (h : off ∈ wholeOffsets word t) :
    OnBoundary t off ∧ OnBoundary t (off + word.byteSize) := by
  have h₀ : word ≠ [] := by
    rintro rfl
    cases h
  have hword : WordAt word t off := by simpa using (List.mem_filter.1 h).2
  obtain ⟨a, m, c, rfl, ⟨hm, -⟩, rfl⟩ := (wordAt_iff h₀).1 hword
  refine ⟨onBoundary_iff.2 ⟨a, m ++ c, by simp, rfl⟩,
    onBoundary_iff.2 ⟨a ++ m, c, rfl, ?_⟩⟩
  rw [byteSize_append, byteSize_eq_of_lower_eq hm]

/-- A word at the start, in bytes. -/
theorem leading_eq_some_iff :
    leading t word = some off ↔ off = word.byteSize ∧ SpelledAt word t 0 ∧
    t.bytes[word.byteSize]?.all isEdgeByte = true := by
  rw [leading, Option.map_eq_some_iff]
  constructor
  · rintro ⟨c, h, rfl⟩
    obtain ⟨m, rfl, hs⟩ := stripWord?_eq_some_iff.1 h
    have hbehind := all_behind [] m c hs.spelled
    rw [List.nil_append, show byteSize [] = 0 from rfl, Nat.zero_add, hs.right]
      at hbehind
    refine ⟨rfl, ?_, hbehind⟩
    rw [SpelledAt, List.drop_zero, ← byteSize_eq_of_lower_eq hs.spelled,
      take_bytes_append, ← bytes_lower, hs.spelled, bytes_lower]
  · rintro ⟨rfl, hspelled, hbehind⟩
    obtain ⟨m, c, rfl, hm⟩ : ∃ m c, t = m ++ c ∧ m.lower = word.lower := by
      by_cases h₀ : word = []
      · exact ⟨[], t, rfl, by rw [h₀]⟩
      · obtain ⟨a, m, c, rfl, hm, ha⟩ := (spelledAt_iff h₀).1 hspelled
        obtain rfl : a = [] := eq_of_byteSize_eq (b := []) (u := m ++ c) rfl ha
        exact ⟨m, c, rfl, hm⟩
    have hright := all_behind [] m c hm
    rw [List.nil_append, show byteSize [] = 0 from rfl, Nat.zero_add, hbehind]
      at hright
    exact ⟨c, stripWord?_eq_some_iff.2 ⟨m, rfl, hm, rfl, rfl, hright.symm⟩, rfl⟩

/-! ## Bytes of the top level -/

/-- A byte of this kind is at the offset, and equally many opening and closing
brackets are before it. -/
def TopByteAt (q : UInt8 → Bool) (t : Text) (off : Nat) : Prop :=
  (∃ b ∈ t.bytes[off]?, q b = true) ∧
    (t.bytes.take off).count '('.toUInt8 = (t.bytes.take off).count ')'.toUInt8

section TopByte

variable {p : Char → Bool} {q : UInt8 → Bool}

/-- A test of bytes of ASCII is one of characters. -/
theorem topByteAt_iff (hq : ∀ b, q b = true → b.toNat < 128)
    (hp : ∀ c, p c = true ↔ ∃ b ∈ String.utf8EncodeChar c, q b = true) :
    TopByteAt q t off ↔
    ∃ a c b, t = a ++ c :: b ∧ byteSize a = off ∧ depth a = 0 ∧ p c = true := by
  have hascii {c : Char} (hc : p c = true) : c.toNat < 128 ∧
      q c.toUInt8 = true := by
    obtain ⟨b, hb, hqb⟩ := (hp c).1 hc
    have hlt : c.toNat < 128 := by
      refine Nat.lt_of_not_le fun hle => ?_
      have := le_of_mem_utf8EncodeChar hle b hb
      have := hq b hqb
      omega
    rw [utf8EncodeChar_ascii hlt, List.mem_singleton] at hb
    exact ⟨hlt, hb ▸ hqb⟩
  constructor
  · rintro ⟨⟨b, hb, hqb⟩, hcount⟩
    have hlt := hq b hqb
    obtain ⟨a, c, u, rfl, hc, rfl⟩ := exists_ascii_at hb hlt
    have hchar : c.toUInt8 = b := by
      rw [← UInt8.toNat_inj, toNat_toUInt8 (hc ▸ hlt), hc]
    refine ⟨a, c, u, rfl, rfl, (depth_eq_zero_iff a _).2 hcount,
      (hp c).2 ⟨b, ?_, hqb⟩⟩
    rw [utf8EncodeChar_ascii (hc ▸ hlt), hchar, List.mem_singleton]
  · rintro ⟨a, c, b, rfl, rfl, hd, hc⟩
    obtain ⟨hlt, hqc⟩ := hascii hc
    exact ⟨⟨_, (getElem?_bytes_iff hlt).2 ⟨a, b, rfl, rfl⟩, hqc⟩,
      (depth_eq_zero_iff a _).1 hd⟩

/-- The first character of the top level that passes a test has the least
offset. -/
theorem isLeast_topPosition (hq : ∀ b, q b = true → b.toNat < 128)
    (hp : ∀ c, p c = true ↔ ∃ b ∈ String.utf8EncodeChar c, q b = true)
    {pos : Nat} (h : topPosition? p t = some pos) :
    IsLeast {off | TopByteAt q t off} (t.offset pos) := by
  obtain ⟨a, c, b, rfl, rfl, hd, hc, hno⟩ := topPosition?_eq_some h
  rw [offset_append]
  refine ⟨(topByteAt_iff hq hp).2 ⟨a, c, b, rfl, rfl, hd, hc⟩,
    fun off hoff => ?_⟩
  obtain ⟨a', c', b', e, rfl, hd', hc'⟩ := (topByteAt_iff hq hp).1 hoff
  refine Nat.le_of_not_lt fun hlt => ?_
  obtain ⟨x, hx, rfl⟩ := exists_append_of_byteSize_lt e.symm hlt
  obtain ⟨d, x, rfl⟩ := List.exists_cons_of_ne_nil hx
  rw [List.append_assoc] at e
  obtain ⟨rfl, -⟩ := List.cons.inj (List.append_cancel_left e)
  rw [hno a' d x rfl hd'] at hc'
  cases hc'

/-- Where no character of the top level passes the test, no byte does. -/
theorem not_topByteAt (hq : ∀ b, q b = true → b.toNat < 128)
    (hp : ∀ c, p c = true ↔ ∃ b ∈ String.utf8EncodeChar c, q b = true)
    (h : topPosition? p t = none) : ¬ TopByteAt q t off := by
  intro hoff
  obtain ⟨a, c, b, rfl, -, hd, hc⟩ := (topByteAt_iff hq hp).1 hoff
  rw [topPosition?_eq_none_iff.1 h a c b rfl hd] at hc
  cases hc

end TopByte

/-- The first byte of ASCII of this value at the top level. -/
theorem topByte?_eq_some_iff {byte : UInt8} (hb : byte.toNat < 128) :
    topByte? t byte = some off ↔
    IsLeast {off | TopByteAt (· == byte) t off} off := by
  have hq (b : UInt8) (h : (b == byte) = true) : b.toNat < 128 :=
    beq_iff_eq.1 h ▸ hb
  have hp (c : Char) : (String.utf8EncodeChar c).contains byte = true ↔
      ∃ b ∈ String.utf8EncodeChar c, (b == byte) = true := by
    simp
  unfold topByte?
  split
  · next pos hpos =>
    have hleast := isLeast_topPosition hq hp hpos
    obtain ⟨a, c, b, rfl, rfl, -, hc, -⟩ := topPosition?_eq_some hpos
    -- the byte is all of the character
    have hindex : (String.utf8EncodeChar c).idxOf byte = 0 := by
      obtain ⟨d, hd, hdb⟩ := (hp c).1 hc
      by_cases hlt : c.toNat < 128
      · rw [utf8EncodeChar_ascii hlt, List.mem_singleton] at hd
        rw [utf8EncodeChar_ascii hlt, ← hd, beq_iff_eq.1 hdb,
          List.idxOf_cons_self]
      · have := le_of_mem_utf8EncodeChar (Nat.le_of_not_lt hlt) d hd
        have := hq d hdb
        omega
    rw [List.drop_left, List.head?_cons, Option.map_some, hindex, Nat.add_zero,
      Option.some.injEq]
    constructor
    · rintro rfl
      exact hleast
    · exact hleast.unique
  · next hnone =>
    simp only [reduceCtorEq, false_iff]
    exact fun h => not_topByteAt hq hp hnone h.1

/-- Is this the byte of a space or of a comma? -/
def endsNameByte (b : UInt8) : Bool := b == ' '.toUInt8 || b == ','.toUInt8

/-- A name ends at the first space or comma of the top level, or at the end. -/
theorem isLeast_nameEnd (t : Text) :
    IsLeast {off | TopByteAt endsNameByte t off ∨
      off = t.byteSize} (nameEnd t) := by
  have hq (b : UInt8) (h : endsNameByte b = true) : b.toNat < 128 := by
    rcases Bool.or_eq_true_iff.1 h with h | h <;> rw [beq_iff_eq.1 h] <;> decide
  have hp (c : Char) : endsName c = true ↔
      ∃ b ∈ String.utf8EncodeChar c, endsNameByte b = true := by
    constructor
    · intro h
      rcases Bool.or_eq_true_iff.1 h with
        h | h <;> rw [beq_iff_eq.1 h] <;> decide
    · rintro ⟨b, hb, hend⟩
      have hlt : c.toNat < 128 := by
        refine Nat.lt_of_not_le fun hle => ?_
        have := le_of_mem_utf8EncodeChar hle b hb
        have := hq b hend
        omega
      rw [utf8EncodeChar_ascii hlt, List.mem_singleton] at hb
      have hspace : ' '.toUInt8.toNat = ' '.toNat := rfl
      have hcomma : ','.toUInt8.toNat = ','.toNat := rfl
      simpa only [hb, endsNameByte, endsName, Bool.or_eq_true, beq_iff_eq,
        ← UInt8.toNat_inj, toNat_toUInt8 hlt, hspace, hcomma, ← Char.toNat_inj]
        using hend
  have hsize (off : Nat) (h : TopByteAt endsNameByte t off) :
      off < t.byteSize := by
    obtain ⟨⟨b, hb, -⟩, -⟩ := h
    rw [← length_bytes]
    exact (List.getElem?_eq_some_iff.1 hb).1
  unfold nameEnd namePosition
  cases hpos : topPosition? endsName t with
  | none =>
    have hend : t.offset t.length = t.byteSize := by
      rw [offset, List.take_length]
    rw [Option.getD_none, hend]
    refine ⟨.inr rfl, ?_⟩
    rintro off (hoff | rfl)
    · exact absurd hoff (not_topByteAt hq hp hpos)
    · exact Nat.le_refl _
  | some pos =>
    obtain ⟨hmem, hleast⟩ := isLeast_topPosition hq hp hpos
    refine ⟨.inl hmem, ?_⟩
    rintro off (hoff | rfl)
    · exact hleast hoff
    · exact Nat.le_of_lt (hsize _ hmem)

/-- A byte below 128 stands on a boundary. -/
theorem onBoundary_of_topByteAt {q : UInt8 → Bool}
    (hq : ∀ b, q b = true → b.toNat < 128) (h : TopByteAt q t off) :
    OnBoundary t off := by
  obtain ⟨⟨b, hb, hqb⟩, -⟩ := h
  obtain ⟨hlt, -⟩ := List.getElem?_eq_some_iff.1 hb
  rw [length_bytes] at hlt
  refine ⟨Nat.le_of_lt hlt, fun d hd => ?_⟩
  obtain rfl : b = d := Option.some.inj (hb.symm.trans hd)
  exact isUTF8FirstByte_of_lt (hq b hqb)

/-! ## Ranges -/

/-- Pieces start and end on boundaries. -/
theorem onBoundary_rangesFrom : ∀ (before : Text) (s : Split),
    ∀ r ∈ Split.rangesFrom before.byteSize s.first s.rest,
      OnBoundary (before ++ s.text) r.1 ∧ OnBoundary (before ++ s.text) r.2
  | before, ⟨first, rest⟩, r, hr => by
    have hfirst (behind : Text) :
        OnBoundary (before ++ (first ++ behind)) before.byteSize ∧ OnBoundary
        (before ++ (first ++ behind)) (before.byteSize + first.byteSize) := by
      refine ⟨onBoundary_append before _, ?_⟩
      rw [← List.append_assoc, ← byteSize_append]
      exact onBoundary_append _ behind
    match rest with
    | [] =>
      obtain rfl := List.mem_singleton.1 hr
      exact hfirst []
    | (sep, piece) :: rest =>
      rcases List.mem_cons.1 hr with rfl | hr
      · exact hfirst _
      · rw [← byteSize_append, ← byteSize_append] at hr
        have ih :=
          onBoundary_rangesFrom (before ++ first ++ sep) ⟨piece, rest⟩ r hr
        simpa [Split.text] using ih

/-- Separators are written as the one that is split at. -/
theorem lower_of_mem_rest {sep : Text} (h₀ : sep ≠ []) {m piece : Text}
    {before : Option Char} {d : Int} {u : Text}
    (h : (m, piece) ∈ (splitFrom sep 0 before d u).rest) :
    m.lower = sep.lower := by
  generalize hn : u.length = n
  induction n using Nat.strongRecOn generalizing before d u with
  | _ n ih =>
    rcases splitFrom_cases h₀ before d u with ⟨-, e⟩ | ⟨a, m', c, rfl, hs, -, e⟩
    · rw [e] at h
      cases h
    · rw [e] at h
      rcases List.mem_cons.1 h with hhead | h
      · rw [(Prod.mk.inj hhead).1]
        exact hs.spelled
      · refine ih c.length ?_ h rfl
        have hm := length_eq_of_lower_eq hs.spelled
        have := List.length_pos_iff.2 h₀
        simp only [List.length_append] at hn
        omega

/-- Between two pieces, the bytes spell the separator. -/
theorem isChain_rangesFrom {sep : Text} (h₀ : sep ≠ []) :
    ∀ (before : Text) (s : Split), (∀ r ∈ s.rest, r.1.lower = sep.lower) →
      (Split.rangesFrom before.byteSize s.first s.rest).IsChain fun r s' =>
      SpelledAt sep (before ++ s.text) r.2 ∧ s'.1 = r.2 + sep.byteSize
  | before, ⟨first, []⟩, _ => .singleton _
  | before, ⟨first, (m, piece) :: rest⟩, h => by
    obtain ⟨hm, hrest⟩ := List.forall_mem_cons.1 h
    have ih := isChain_rangesFrom h₀ (before ++ first ++ m) ⟨piece, rest⟩ hrest
    have htext : before ++ first ++ m ++ Split.text ⟨piece, rest⟩ =
        before ++ Split.text ⟨first, (m, piece) :: rest⟩ := by
      simp [Split.text]
    rw [htext, byteSize_append, byteSize_append] at ih
    have hspelled : SpelledAt sep (before ++ Split.text
        ⟨first, (m, piece) :: rest⟩) (before.byteSize + first.byteSize) :=
      (spelledAt_iff h₀).2 ⟨before ++ first, m, _, htext.symm, hm,
        byteSize_append _ _⟩
    obtain ⟨stop, more, hmore⟩ := Split.exists_rangesFrom
      (before.byteSize + first.byteSize + m.byteSize) piece rest
    rw [hmore] at ih
    rw [Split.rangesFrom, hmore]
    exact List.isChain_cons_cons.2
      ⟨⟨hspelled, by rw [byteSize_eq_of_lower_eq hm]⟩, ih⟩

/-! ## Narrowing -/

/-- A text is cut apart inside of a character unless the offset, or the end for
an offset behind it, is on a boundary. -/
theorem isSome_cappedPosition?_iff :
    (t.cappedPosition? off).isSome = true ↔
    OnBoundary t (min off t.byteSize) := by
  rw [cappedPosition?, onBoundary_iff, Option.isSome_iff_exists]
  simp only [position?_eq_some_iff]
  constructor
  · rintro ⟨_, a, b, e, -, hsize⟩
    exact ⟨a, b, e, hsize⟩
  · rintro ⟨a, b, e, hsize⟩
    exact ⟨_, a, b, e, rfl, hsize⟩

/-- A text can be cut at the start except inside a character. -/
theorem apply_advance_iff :
    Narrowing.apply t (.advance off) ≠ .insideCharacter ↔
    OnBoundary t (min off t.byteSize) := by
  rw [← isSome_cappedPosition?_iff, Narrowing.apply]
  cases t.cappedPosition? off <;> simp

/-- A text can be cut at the end except inside a character. -/
theorem apply_truncate_iff :
    Narrowing.apply t (.truncate off) ≠ .insideCharacter ↔
    OnBoundary t (min off t.byteSize) := by
  rw [← isSome_cappedPosition?_iff, Narrowing.apply]
  cases t.cappedPosition? off <;> simp

/-! ## All scans -/

/-- The scans of a text answer what is found among its bytes. -/
structure ScansBytes (t : Text) : Prop where
  find (word : Text) (n : Int) : find t word n = nth? n (wholeOffsets word t)
  findTop (word : Text) (n : Int) :
    findTop t word n = nth? n (topWholeOffsets word t)
  leading (word : Text) (off : Nat) : leading t word = some off ↔
    off = word.byteSize ∧ SpelledAt word t 0 ∧
    t.bytes[word.byteSize]?.all isEdgeByte = true
  matchingClose (off close : Nat) : matchingClose t off = some close ↔
    Encloses t off close
  nameEnd :
    IsLeast {off | TopByteAt endsNameByte t off ∨ off = t.byteSize} (nameEnd t)
  topByte (byte : UInt8) (off : Nat) : byte.toNat < 128 →
    (topByte? t byte = some off ↔
    IsLeast {off | TopByteAt (· == byte) t off} off)
  ranges (sep : Text) : sep ≠ [] → (split sep t).ranges.IsChain fun r s =>
    SpelledAt sep t r.2 ∧ s.1 = r.2 + sep.byteSize

/-- The scans of a text answer offsets at which it can be sliced. -/
structure AnswersBoundaries (t : Text) : Prop where
  find (word : Text) (n : Int) (off : Nat) : find t word n = some off →
    OnBoundary t off ∧ OnBoundary t (off + word.byteSize)
  findTop (word : Text) (n : Int) (off : Nat) : findTop t word n = some off →
    OnBoundary t off ∧ OnBoundary t (off + word.byteSize)
  leading (word : Text) (off : Nat) : leading t word = some off →
    OnBoundary t off
  matchingClose (off close : Nat) : matchingClose t off = some close →
    OnBoundary t close
  nameEnd : OnBoundary t (nameEnd t)
  topByte (byte : UInt8) (off : Nat) : byte.toNat < 128 →
    topByte? t byte = some off → OnBoundary t off
  ranges (sep : Text) : ∀ r ∈ (split sep t).ranges, OnBoundary t r.1 ∧
    OnBoundary t r.2
  slices (off : Nat) : OnBoundary t off →
    Narrowing.apply t (.advance off) ≠ .insideCharacter ∧
    Narrowing.apply t (.truncate off) ≠ .insideCharacter

/-- Each scan of a text does what a scan of its bytes does. -/
theorem scansBytes (t : Text) : ScansBytes t where
  find word n := by rw [← (offsets_occurrences word t).1, nth?_map]; rfl
  findTop word n := by rw [← (offsets_occurrences word t).2, nth?_map]; rfl
  leading _ _ := leading_eq_some_iff
  matchingClose _ _ := matchingClose_eq_some_iff
  nameEnd := isLeast_nameEnd t
  topByte _ _ := topByte?_eq_some_iff
  ranges sep h₀ := by
    have h :=
      isChain_rangesFrom h₀ [] (split sep t) fun r hr => lower_of_mem_rest h₀ hr
    rwa [text_split] at h

/-- Every scan of a text, for a word or separator of any characters, finds what
is found among the bytes, and its answers lie on boundaries. -/
theorem scans_onBoundary (t : Text) : ScansBytes t ∧ AnswersBoundaries t := by
  have hscans := scansBytes t
  refine ⟨hscans, ?_, ?_, ?_, ?_, ?_, ?_, ?_, ?_⟩
  · intro word n off h
    rw [hscans.find] at h
    exact onBoundary_of_mem_wholeOffsets (mem_of_nth? h)
  · intro word n off h
    rw [hscans.findTop] at h
    exact onBoundary_of_mem_wholeOffsets (List.mem_filter.1 (mem_of_nth? h)).1
  · intro word off h
    obtain ⟨c, hc, rfl⟩ := Option.map_eq_some_iff.1 h
    obtain ⟨m, rfl, hs⟩ := stripWord?_eq_some_iff.1 hc
    exact onBoundary_iff.2 ⟨m, c, rfl, byteSize_eq_of_lower_eq hs.spelled⟩
  · intro off close h
    obtain ⟨a, inside, rest, rfl, -, rfl, -⟩ :=
      encloses_iff.1 ((hscans.matchingClose off close).1 h)
    exact onBoundary_append _ _
  · rcases hscans.nameEnd.1 with h | h
    · refine onBoundary_of_topByteAt (fun b hb => ?_) h
      rcases Bool.or_eq_true_iff.1 hb with
        hb | hb <;> rw [beq_iff_eq.1 hb] <;> decide
    · exact onBoundary_iff.2 ⟨t, [], by simp, h.symm⟩
  · intro byte off hb h
    refine onBoundary_of_topByteAt
      (fun b hbb => ?_) ((hscans.topByte byte off hb).1 h).1
    exact beq_iff_eq.1 hbb ▸ hb
  · intro sep r hr
    have h := onBoundary_rangesFrom [] (split sep t) r hr
    rwa [text_split] at h
  · intro off h
    have hmin : OnBoundary t (min off t.byteSize) := by
      rwa [Nat.min_eq_left h.le]
    exact ⟨apply_advance_iff.2 hmin, apply_truncate_iff.2 hmin⟩

/-- Words that are not of ASCII are found between edges, in their own letter
case only. -/
example :
    find "é Éé (É) É)é É".toList "É".toList (-2) = some 13 ∧
    (split "É".toList "éÉ(É)É".toList).ranges = [(0, 2), (4, 8), (10, 10)] := by
  decide

end SqlRiver
