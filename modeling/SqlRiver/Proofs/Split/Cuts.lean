import SqlRiver.Proofs.Keyword.Offsets
import SqlRiver.Proofs.Split

/-!
# Where a split cuts

A split and a search look for a keyword in different ways. A search lists where
the word is spelled, passes over overlaps, and keeps whole words of the top
level. A split walks along the text, tries the word only outside of brackets,
and jumps behind each one that it takes. Here the two are shown to stop at the
same offsets. Both the cuts of a split and the offsets of a search ascend, so it
is enough that they are the same set: and by induction along the split, the cuts
are the places where the word stands, since a word that stands behind the first
cut stands in the text behind it.

Main definitions and statements:

* `Split.ranges`, `Split.cuts`: the byte ranges of the pieces, and their ends
  but for the last one.
* `Split.slice_ranges`: the ranges are those of the pieces.
* `cuts_split`: a split at a keyword cuts where a search finds it.
* `cuts_findTop`: cuts are found one after the other, and there are as many as
  pieces before the last one.
-/

namespace SqlRiver

open Text

namespace Split

/-- The byte ranges of a piece and of those behind it, when the piece starts at
an offset. -/
def rangesFrom (start : Nat) : Text → List (Text × Text) → List (Nat × Nat)
  | first, [] => [(start, start + first.byteSize)]
  | first, (sep, piece) :: rest =>
    (start, start + first.byteSize) ::
      rangesFrom (start + first.byteSize + sep.byteSize) piece rest

/-- The byte ranges of the pieces. -/
def ranges (s : Split) : List (Nat × Nat) := rangesFrom 0 s.first s.rest

/-- The offsets at which a text is cut: each piece but for the last one ends at
a separator. -/
def cuts (s : Split) : List Nat := s.ranges.dropLast.map Prod.snd

theorem length_rangesFrom :
    ∀ (start : Nat) (first : Text) (rest : List (Text × Text)),
      (rangesFrom start first rest).length = rest.length + 1
  | _, _, [] => rfl
  | start, first, (sep, piece) :: rest => by
    rw [rangesFrom, List.length_cons, length_rangesFrom, List.length_cons]

theorem exists_rangesFrom (start : Nat) (first : Text)
    (rest : List (Text × Text)) :
    ∃ stop more, rangesFrom start first rest = (start, stop) :: more := by
  cases rest with
  | nil => exact ⟨_, _, rfl⟩
  | cons _ _ => exact ⟨_, _, rfl⟩

/-- Ranges behind a prefix of the text are shifted by its size. -/
theorem rangesFrom_add (n : Nat) :
    ∀ (start : Nat) (first : Text) (rest : List (Text × Text)),
      rangesFrom (n + start) first rest = (rangesFrom start first rest).map
      fun r => (n + r.1, n + r.2)
  | start, first, [] => by simp [rangesFrom, Nat.add_assoc]
  | start, first, (sep, piece) :: rest => by
    simp only [rangesFrom, List.map_cons, ← rangesFrom_add n, Nat.add_assoc]

/-- The bytes of a text in the range of a piece are those of the piece. -/
theorem slice_rangesFrom :
    ∀ (before : Text) (s : Split),
      (rangesFrom before.byteSize s.first s.rest).map (fun r =>
      ((before ++ s.text).bytes.take r.2).drop r.1) = s.parts.map bytes
  | before, ⟨first, rest⟩ => by
    have hhead : ∀ behind : Text, ((before ++ (first ++ behind)).bytes.take
        (before.byteSize + first.byteSize)).drop before.byteSize =
        first.bytes := by
      intro behind
      rw [← byteSize_append, ← List.append_assoc,
        bytes_append (before ++ first), ← length_bytes (before ++ first),
        List.take_left, bytes_append, ← length_bytes before, List.drop_left]
    match rest with
    | [] =>
      have h := hhead []
      simpa [rangesFrom, text, parts] using h
    | (sep, piece) :: rest =>
      have ih := slice_rangesFrom (before ++ first ++ sep) ⟨piece, rest⟩
      have htext : before ++ first ++ sep ++ text ⟨piece, rest⟩ =
          before ++ text ⟨first, (sep, piece) :: rest⟩ := by
        simp [text]
      rw [htext, byteSize_append, byteSize_append] at ih
      rw [rangesFrom, List.map_cons, ih]
      simp only [parts, List.map_cons, text, hhead]

/-- The ranges of a split are those of its pieces. -/
theorem slice_ranges (s : Split) :
    s.ranges.map (fun r => (s.text.bytes.take r.2).drop r.1) =
      s.parts.map bytes :=
  slice_rangesFrom [] s

@[simp] theorem cuts_single (t : Text) : cuts ⟨t, []⟩ = [] := rfl

/-- The cuts behind the first separator are moved by what stands before them. -/
theorem cuts_cons (a m : Text) (s : Split) :
    cuts ⟨a, (m, s.first) :: s.rest⟩ =
      a.byteSize :: s.cuts.map ((a ++ m).byteSize + ·) := by
  have hshift : rangesFrom ((a ++ m).byteSize) s.first s.rest = s.ranges.map
      fun r => ((a ++ m).byteSize + r.1, (a ++ m).byteSize + r.2) :=
    rangesFrom_add _ 0 s.first s.rest
  have hne : s.ranges ≠ [] := by
    obtain ⟨stop, more, h⟩ := exists_rangesFrom 0 s.first s.rest
    rw [ranges, h]
    exact List.cons_ne_nil _ _
  rw [cuts, ranges, rangesFrom, Nat.zero_add, ← byteSize_append, hshift, cuts,
    List.dropLast_cons_of_ne_nil (by simpa using hne), List.map_cons,
    List.map_dropLast, List.map_map, List.map_dropLast, List.map_dropLast,
    List.map_map]
  rfl

/-- There are as many cuts as pieces before the last one. -/
theorem length_cuts (s : Split) : s.cuts.length = s.segments.length := by
  rw [cuts, ranges, segments, pieces, parts, List.length_map,
    List.length_dropLast, length_rangesFrom, List.length_dropLast,
    List.length_map, List.length_cons, List.length_map]

end Split

section Phrase

variable {word t : Text} (hw : isPhrase word = true)
include hw

/-- The cuts of a split at a phrase ascend, and they are the offsets at which
the phrase stands. -/
theorem cuts_spec (t : Text) :
    (split word t).cuts.Pairwise (· < ·) ∧ ∀ off, off ∈ (split word t).cuts ↔
      ∃ a m c, t = a ++ m ++ c ∧ Stands word a m c ∧ byteSize a = off := by
  refine split_phrase_induction hw (P := fun t s => s.cuts.Pairwise (· < ·) ∧
    ∀ off, off ∈ s.cuts ↔
    ∃ a m c, t = a ++ m ++ c ∧ Stands word a m c ∧ byteSize a = off) ?_ ?_ t
  · intro t habs
    refine ⟨by simp, fun off => ?_⟩
    simp only [Split.cuts_single, List.not_mem_nil, false_iff]
    rintro ⟨a, m, c, rfl, hs, -⟩
    exact habs a m c rfl hs
  · rintro a m c s hs habs ⟨hpair, hmem⟩
    have hm := byteSize_pos (spelling_ne_nil hw hs.spelled)
    rw [Split.cuts_cons]
    refine ⟨List.pairwise_cons.2
      ⟨?_, List.pairwise_map.2 (hpair.imp (by omega))⟩, fun off => ?_⟩
    · intro off hoff
      obtain ⟨o, -, rfl⟩ := List.mem_map.1 hoff
      rw [byteSize_append]
      omega
    rw [List.mem_cons, List.mem_map]
    constructor
    · rintro (rfl | ⟨o, ho, rfl⟩)
      · exact ⟨a, m, c, rfl, hs, rfl⟩
      · obtain ⟨u, n, v, rfl, hn, rfl⟩ := (hmem o).1 ho
        exact ⟨a ++ m ++ u, n, v, by simp, (hs.behind_iff hw).2 hn,
          byteSize_append _ _⟩
    · rintro ⟨u, n, v, e, hn, rfl⟩
      -- the word stands at the first cut or behind it, but not before
      rcases Nat.lt_trichotomy (byteSize u) (byteSize a) with hlt | heq | hlt
      · rw [List.append_assoc, List.append_assoc] at e
        obtain ⟨x, hx, rfl⟩ := exists_append_of_byteSize_lt e.symm hlt
        rw [List.append_assoc] at e
        exact absurd hn (habs u x n v rfl hx (List.append_cancel_left e))
      · exact .inl heq
      · have hlen : a.length < u.length := by
          obtain ⟨x, hx, rfl⟩ := exists_append_of_byteSize_lt
            (by rwa [List.append_assoc, List.append_assoc] at e) hlt
          have := List.length_pos_iff.2 hx
          rw [List.length_append]
          omega
        obtain ⟨z, rfl, rfl⟩ := hs.exists_behind hw hn e hlen
        refine .inr ⟨byteSize z,
          (hmem _).2 ⟨z, n, v, rfl, (hs.behind_iff hw).1 hn, rfl⟩, ?_⟩
        rw [byteSize_append (a ++ m)]

/-- A split at a phrase cuts where a search finds it, in the same order. -/
theorem cuts_split (t : Text) :
    (split word t).cuts = (topOccurrences word t).map fun p =>
      t.offset p.pos := by
  obtain ⟨hpair, hmem⟩ := cuts_spec hw t
  have hplaces : ((topOccurrences word t).map fun p =>
      t.offset p.pos).Pairwise (· < ·) := by
    rw [topOccurrences_eq hw]
    exact List.pairwise_map.2 ((pairwise_offset t).filter _)
  refine hpair.eq_of_mem_iff hplaces fun off => ?_
  rw [hmem, ← exists_place_iff (P := fun p => p.isTop && p.holds word)
    fun _ _ => holds_placeAt, topOccurrences_eq hw]
  simp only [List.mem_map, List.mem_filter, and_assoc]

end Phrase

/-- A split at a keyword cuts at the offsets of the first occurrence of the
keyword, of the second one, and so on, until there is none. So the keyword is
counted as often as a piece ends before it. -/
theorem cuts_findTop (t : Text) {word : Text} (h : word ∈ soughtWords) :
    (∀ n : Nat, (split word t).cuts[n]? = findTop t word (n + 1)) ∧
      countTop word t = (split word t).segments.length := by
  have hcuts := cuts_split (isPhrase_of_mem_soughtWords h) t
  refine ⟨fun n => ?_, ?_⟩
  · rw [hcuts, List.getElem?_map]
    rfl
  · rw [← Split.length_cuts, hcuts, List.length_map, countTop]

/-- Cuts next to a bracket, and behind brackets that close too early and open
again. -/
theorem cuts_findTop_brackets :
    let t : Text := "é and f(a and b)and g) AND h( And i".toList
    (∀ n : Nat, [3, 17, 31][n]? = findTop t "and".toList (n + 1)) ∧
        countTop "and".toList t = 3 := by
  intro t
  have hcuts : (split "and".toList t).cuts = [3, 17, 31] := by decide
  have hword : "and".toList ∈ soughtWords := by decide
  obtain ⟨hfind, hcount⟩ := cuts_findTop t hword
  refine ⟨fun n => hcuts ▸ hfind n, ?_⟩
  rw [hcount, ← Split.length_cuts, hcuts]
  rfl

end SqlRiver
