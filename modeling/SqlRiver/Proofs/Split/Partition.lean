import SqlRiver.Proofs.Split.Cuts

/-!
# What a split covers

A split at any separator is compared with the bytes of the text. The ranges of
the pieces cover the text from its start to its end, but for the separators
between them, and nothing that separates is left inside of a range. Both follow
along the split. A run that starts behind a part of the text takes the first
separator there is; no separator ends before it and starts behind that part, and
what the run does behind it is the same question for a longer part. The depth is
zero behind each separator that was taken, since no bracket is in it.

Main definitions and statements:

* `SeparatorAt`: the bytes at an offset separate pieces of a text.
* `separatorAt_iff`: these are the places at which a split may cut.
* `Partitions`: ranges that cover the text behind an offset, with separators
  between them and none inside.
* `split_partitions`: the ranges of the pieces are of this kind.
-/

namespace SqlRiver

open Text

variable {sep t : Text} {off start : Nat}

/-! ## Separators in bytes -/

/-- The bytes at an offset separate pieces of a text: they spell the separator,
letter case ignored, equally many opening and closing brackets are before them,
and the bytes next to them are edges if the separator is like a word. -/
structure SeparatorAt (sep t : Text) (off : Nat) : Prop where
  spelled : SpelledAt sep t off
  top :
    (t.bytes.take off).count '('.toUInt8 = (t.bytes.take off).count ')'.toUInt8
  whole : isWordLike sep = true →
    (t.bytes.take off).getLast?.all isEdgeByte = true ∧
    t.bytes[off + sep.byteSize]?.all isEdgeByte = true

theorem separatorAt_iff (h₀ : sep ≠ []) :
    SeparatorAt sep t off ↔ ∃ a m c, t = a ++ m ++ c ∧
      Separator sep none 0 a m c ∧ byteSize a = off := by
  have hedges (a m c : Text) (hm : m.lower = sep.lower) :
      ((bytes (a ++ m ++ c)).take (byteSize a)).getLast?.all isEdgeByte =
      atEdge (a.getLast?.or none) ∧
      (bytes (a ++ m ++ c))[byteSize a + sep.byteSize]?.all isEdgeByte =
      atEdge c.head? := by
    rw [Option.or_none, all_behind a m c hm, List.append_assoc, all_before]
    exact ⟨rfl, rfl⟩
  have htop (a m c : Text) : 0 + depth a = 0 ↔
      ((bytes (a ++ m ++ c)).take (byteSize a)).count '('.toUInt8 =
      ((bytes (a ++ m ++ c)).take (byteSize a)).count ')'.toUInt8 := by
    rw [Int.zero_add, List.append_assoc]
    exact depth_eq_zero_iff a (m ++ c)
  constructor
  · rintro ⟨hspelled, hcount, hwhole⟩
    obtain ⟨a, m, c, rfl, hm, rfl⟩ := (spelledAt_iff h₀).1 hspelled
    obtain ⟨hleft, hright⟩ := hedges a m c hm
    rw [hleft, hright] at hwhole
    exact ⟨a, m, c, rfl, ⟨hm, (htop a m c).2 hcount, hwhole⟩, rfl⟩
  · rintro ⟨a, m, c, rfl, ⟨hm, hd, hwhole⟩, rfl⟩
    obtain ⟨hleft, hright⟩ := hedges a m c hm
    rw [← hleft, ← hright] at hwhole
    exact ⟨(spelledAt_iff h₀).2 ⟨a, m, c, rfl, hm, rfl⟩, (htop a m c).1 hd,
      hwhole⟩

/-- Behind a part of the text at depth zero, the part counts for a separator
only with its last character. -/
theorem separator_append_iff {p a m c : Text} (hp : depth p = 0) :
    Separator sep none 0 (p ++ a) m c ↔ Separator sep p.getLast? 0 a m c := by
  have hlast : (p ++ a).getLast?.or none = a.getLast?.or p.getLast? := by
    rw [Option.or_none, List.getLast?_append]
  have hd : depth (p ++ a) = depth a := by rw [depth_append, hp, Int.zero_add]
  constructor
  · rintro ⟨hm, htop, hwhole⟩
    exact ⟨hm, hd ▸ htop, hlast ▸ hwhole⟩
  · rintro ⟨hm, htop, hwhole⟩
    exact ⟨hm, hd.symm ▸ htop, hlast.symm ▸ hwhole⟩

/-- The separators behind a part of the text at depth zero. -/
theorem exists_separator_behind (h₀ : sep ≠ []) {p u : Text} (hp : depth p = 0)
    (hle : byteSize p ≤ off) (h : SeparatorAt sep (p ++ u) off) :
    ∃ a m c, u = a ++ m ++ c ∧ Separator sep p.getLast? 0 a m c ∧
      byteSize (p ++ a) = off := by
  obtain ⟨b, m, c, e, hs, rfl⟩ := (separatorAt_iff h₀).1 h
  rw [List.append_assoc] at e
  obtain ⟨a, rfl⟩ := exists_append_of_byteSize_le e hle
  rw [List.append_assoc] at e
  exact ⟨a, m, c, by rw [List.append_assoc, List.append_cancel_left e],
    (separator_append_iff hp).1 hs, rfl⟩

/-! ## Partitions -/

/-- Ranges of a text that cover it behind an offset, in order and apart from
each other, with a separator between two of them and none inside of any. -/
structure Partitions (sep t : Text) (start : Nat) (ranges : List (Nat × Nat)) :
    Prop where
  starts : ranges.head?.map Prod.fst = some start
  ends : ranges.getLast?.map Prod.snd = some t.byteSize
  ascending : ∀ r ∈ ranges, r.1 ≤ r.2
  disjoint : ranges.Pairwise fun r s => r.2 < s.1
  gaps : ranges.IsChain fun r s => SeparatorAt sep t r.2 ∧
    s.1 = r.2 + sep.byteSize
  complete : ∀ r ∈ ranges, ∀ off, r.1 ≤ off → off + sep.byteSize ≤ r.2 →
    ¬ SeparatorAt sep t off

/-- What is left of a text is one range if no separator is in it. -/
theorem partitions_single (hle : start ≤ t.byteSize) (h : ∀ off, start ≤ off →
    off + sep.byteSize ≤ t.byteSize → ¬ SeparatorAt sep t off) :
    Partitions sep t start [(start, t.byteSize)] where
  starts := rfl
  ends := rfl
  ascending := by simpa using hle
  disjoint := List.pairwise_singleton _ _
  gaps := .singleton _
  complete := by simpa using h

/-- A range up to the first separator comes before those behind the
separator. -/
theorem Partitions.cons {ranges : List (Nat × Nat)} (h₀ : sep ≠ [])
    (hr : Partitions sep t (off + sep.byteSize) ranges)
    (hs : SeparatorAt sep t off) (hle : start ≤ off)
    (h : ∀ o, start ≤ o → o + sep.byteSize ≤ off → ¬ SeparatorAt sep t o) :
    Partitions sep t start ((start, off) :: ranges) := by
  obtain ⟨⟨a, b⟩, rest, rfl⟩ :=
    List.exists_cons_of_ne_nil fun hnil : ranges = [] => by
    have := hr.starts
    rw [hnil] at this
    cases this
  obtain rfl : a = off + sep.byteSize := Option.some.inj hr.starts
  have hpos := byteSize_pos h₀
  have hhead : off < off + sep.byteSize := by omega
  refine ⟨rfl, ?_, List.forall_mem_cons.2 ⟨hle, hr.ascending⟩,
    List.pairwise_cons.2 ⟨?_, hr.disjoint⟩, List.isChain_cons_cons.2
    ⟨⟨hs, rfl⟩, hr.gaps⟩, List.forall_mem_cons.2 ⟨h, hr.complete⟩⟩
  · rw [List.getLast?_cons_cons]
    exact hr.ends
  · -- a later range starts behind the end of the first one behind the separator
    refine List.forall_mem_cons.2 ⟨hhead, fun s hs' => ?_⟩
    have hfirst := hr.ascending _ (List.mem_cons_self ..)
    have hbehind := List.rel_of_pairwise_cons hr.disjoint hs'
    exact Nat.lt_of_lt_of_le hhead
      (Nat.le_of_lt (Nat.lt_of_le_of_lt hfirst hbehind))

/-- The ranges of a run of the split behind a part of the text that is at depth
zero. -/
theorem partitions_splitFrom (h₀ : sep ≠ []) (hd : depth sep = 0) (u : Text) :
    ∀ p, depth p = 0 → Partitions sep (p ++ u) p.byteSize
      (Split.rangesFrom p.byteSize (splitFrom sep 0 p.getLast? 0 u).first
      (splitFrom sep 0 p.getLast? 0 u).rest) := by
  generalize hn : u.length = n
  induction n using Nat.strongRecOn generalizing u with
  | _ n ih =>
    intro p hp
    rcases splitFrom_cases h₀ p.getLast? 0 u with
      ⟨habs, e⟩ | ⟨a, m, c, rfl, hs, hfirst, e⟩
    · rw [e, Split.rangesFrom, ← byteSize_append]
      refine partitions_single (by rw [byteSize_append]; omega)
        fun off hle _ hsep => ?_
      obtain ⟨a, m, c, rfl, hs, -⟩ := exists_separator_behind h₀ hp hle hsep
      exact habs a m c rfl hs
    · have hm : m ≠ [] := by
        rintro rfl
        exact h₀ (List.length_eq_zero_iff.1
          (Text.length_eq_of_lower_eq hs.spelled).symm)
      have hsize := byteSize_eq_of_lower_eq hs.spelled
      have ha : depth a = 0 := by simpa using hs.top
      have hdepth : depth (p ++ a ++ m) = 0 := by
        rw [depth_append, depth_append, hp, ha, depth_of_lower_eq hs.spelled,
          hd]
        rfl
      have hshorter : c.length < n := by
        have := List.length_pos_iff.2 hm
        simp only [List.length_append] at hn
        omega
      have hbehind := ih c.length hshorter c rfl (p ++ a ++ m) hdepth
      rw [List.getLast?_append_of_ne_nil _ hm, byteSize_append, byteSize_append,
        hsize] at hbehind
      rw [e, Split.rangesFrom, hsize]
      have htext : p ++ (a ++ m ++ c) = p ++ a ++ m ++ c := by simp
      rw [htext]
      refine hbehind.cons h₀ ?_ (Nat.le_add_right _ _)
        fun off hle hend hsep => ?_
      · exact (separatorAt_iff h₀).2 ⟨p ++ a, m, c, rfl,
          (separator_append_iff hp).2 hs, byteSize_append p a⟩
      · -- a separator that ends before the first one starts before it
        obtain ⟨b, n, v, e', hs', rfl⟩ :=
          exists_separator_behind h₀ hp hle (htext ▸ hsep)
        have hpos := byteSize_pos h₀
        have hlt : byteSize b < byteSize a := by
          simp only [byteSize_append] at hend
          omega
        rw [List.append_assoc, List.append_assoc] at e'
        obtain ⟨x, hx, rfl⟩ := exists_append_of_byteSize_lt e'.symm hlt
        rw [List.append_assoc] at e'
        exact hfirst b x n v rfl hx
          (by rw [List.append_assoc, List.append_cancel_left e']) hs'

/-- The ranges of the pieces of a text cover it, with the separators of its top
level between them and none inside, and the bytes in them are those of the
pieces. -/
theorem split_partitions (sep t : Text) (h₀ : sep ≠ []) (hopen : '(' ∉ sep)
    (hclose : ')' ∉ sep) :
    Partitions sep t 0 (split sep t).ranges ∧
    (split sep t).ranges.map (fun r => (t.bytes.take r.2).drop r.1) =
      (split sep t).parts.map bytes := by
  have hd : depth sep = 0 := by
    refine depth_eq_zero fun c hc => ?_
    have ho : c ≠ '(' := fun h => hopen (h ▸ hc)
    have hc' : c ≠ ')' := fun h => hclose (h ▸ hc)
    simp [depthStep, ho, hc']
  refine ⟨partitions_splitFrom h₀ hd t [] rfl, ?_⟩
  have hslice := Split.slice_ranges (split sep t)
  rwa [text_split] at hslice

/-- Separators behind a character of two bytes, at depths below zero, inside of
brackets and at the end. -/
theorem split_partitions_brackets :
    Partitions "and".toList "é aNd f(a and b)and) and x( AND".toList 0
      [(0, 3), (6, 17), (20, 29), (32, 32)] := by
  have hranges :
      (split "and".toList "é aNd f(a and b)and) and x( AND".toList).ranges =
      [(0, 3), (6, 17), (20, 29), (32, 32)] := by decide
  have h := split_partitions "and".toList
    "é aNd f(a and b)and) and x( AND".toList (by decide) (by decide) (by decide)
  rw [hranges] at h
  exact h.1

end SqlRiver
