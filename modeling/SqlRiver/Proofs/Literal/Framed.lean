import SqlRiver.Proofs.Literal.Preserved

/-!
# Quoted spans of a text between two lines

A line break ends a comment and stands in no tag. So a text that stands on lines
of its own, between texts without a quote and a comment, has the segments, the
tag and the placeholders that it has by itself.

Main statements:

* `segments_inert_append`, `segments_append_newline`: segments of a text with
  others around it.
* `protect_inert`: protecting a text that holds nothing to protect.
* `protect_framed`: protecting a text between two lines.
-/

namespace SqlRiver

/-! ## Segments -/

/-- An inert text before another is passed over character by character, unless a
comment opens between them. -/
theorem segments_inert_append :
    ∀ {a t : Text} {segs : List Segment}, inert a = true →
      opensComment a.getLast? t.head? = false → segments t = .ok segs →
      segments (a ++ t) = .ok (a.map .plain ++ segs)
  | [], _, _, _, _, ht => ht
  | c :: a, t, segs, ha, hc, ht => by
    obtain ⟨hq, ho, ha⟩ := inert_cons.1 ha
    cases a with
    | nil => exact segments_plain hq hc ht
    | cons d a =>
      have ih :=
        segments_inert_append ha (by rwa [List.getLast?_cons_cons] at hc) ht
      exact segments_plain hq ho ih

theorem segments_inert {t : Text} (h : inert t = true) :
    segments t = .ok (t.map .plain) := by
  have := segments_inert_append (t :=
    []) h (by simp) (show segments [] = .ok [] from rfl)
  simpa using this

/-- A comment that is closed ends at the same place whatever follows. -/
theorem throughCommentEnd_append {v : Text} :
    ∀ {t body : Text}, throughCommentEnd t = some body →
      throughCommentEnd (t ++ v) = some body
  | [], _, h => by cases h
  | c :: t, body, h => by
    rw [throughCommentEnd] at h
    rw [List.cons_append, throughCommentEnd]
    split at h
    · next hend =>
      obtain ⟨rfl, ht⟩ : c = '*' ∧ t.head? = some '/' := by simpa using hend
      obtain ⟨t, rfl⟩ := List.head?_eq_some_iff.1 ht
      simpa using h
    · next hend =>
      obtain ⟨b, hb, rfl⟩ := Option.map_eq_some_iff.1 h
      have hend' : (c == '*' && (t ++ v).head? == some '/') = false := by
        cases t with
        | nil => cases hb
        | cons d t => simpa using hend
      rw [if_neg (by rw [hend']; decide), throughCommentEnd_append hb,
        Option.map_some]

/-- A line break behind a text changes none of its segments. -/
theorem next_newline {c : Char} {r u : Text} {s : Segment}
    (h : Segment.next 0 c r = .ok s) :
    Segment.next 0 c (r ++ '\n' :: u) = .ok s := by
  have hhead {d : Char} (hd : d ≠ '\n') :
      ((r ++ '\n' :: u).head? == some d) = (r.head? == some d) := by
    cases r with
    | nil => simpa using hd.symm
    | cons e r => rfl
  unfold Segment.next at h ⊢
  rw [hhead (by decide), hhead (by decide)]
  split at h
  · next hq =>
    rw [if_pos hq]
    split at h
    · next body hb =>
      obtain ⟨x, rest, rfl, hx, rfl⟩ := Text.throughFirst_eq_some_iff.1 hb
      have hb' :
          Text.throughFirst c (x ++ c :: rest ++ '\n' :: u) = some (x ++ [c]) :=
        Text.throughFirst_eq_some_iff.2 ⟨x, rest ++ '\n' :: u, by simp, hx, rfl⟩
      rw [hb']
      exact h
    · cases h
  · next hq =>
    rw [if_neg hq]
    split at h
    · next hc =>
      have e :
          (r ++ '\n' :: u).takeWhile (· != '\n') = r.takeWhile (· != '\n') := by
        rw [List.takeWhile_append]
        split
        · next hl => simp [(List.takeWhile_prefix _).eq_of_length hl]
        · rfl
      rw [if_pos hc, e]
      exact h
    · next hc =>
      rw [if_neg hc]
      split at h
      · next ho =>
        rw [if_pos ho]
        split at h
        · next body hb =>
          have hr : r ≠ [] := by
            rintro rfl
            simp at ho
          rw [List.drop_append_of_le_length (List.length_pos_iff.2 hr),
            throughCommentEnd_append hb]
          exact h
        · cases h
      · next ho =>
        rw [if_neg ho]
        exact h

/-- A text that is divided into segments may be followed by a line break and
another such text. -/
theorem segments_append_newline {u : Text} {segs' : List Segment}
    (hu : segments u = .ok segs') :
    ∀ {segs : List Segment} {t : Text}, segments t = .ok segs →
      segments (t ++ '\n' :: u) = .ok (segs ++ .plain '\n' :: segs')
  | [], t, ht => by
    obtain rfl : t = [] := (source_of_segments ht).symm
    exact segments_plain rfl (opensComment_of_ne (by decide) (by decide) _) hu
  | s :: segs, t, ht => by
    obtain ⟨c, x, rest, rfl, hx, hs, hrest⟩ := segments_eq_cons ht
    have ih := segments_append_newline hu hrest
    have hs' := next_newline (u := u) hs
    rw [List.append_assoc] at hs'
    rw [List.append_assoc]
    exact segments_cons hs' hx ih

/-! ## Tags -/

namespace LiteralTable

theorem underscore_mem_tagOf (marks : Nat) : '_' ∈ tagOf marks := by
  simp [tagOf]

theorem newline_not_mem_tagOf (marks : Nat) : '\n' ∉ tagOf marks := by
  simp [tagOf]

/-- Lines without underscores around a text take no part in the search for its
tag. -/
theorem unusedMarks_framed {a b t : Text} (ha : '_' ∉ a) (hb : '_' ∉ b) :
    unusedMarks (a ++ '\n' :: (t ++ '\n' :: b)) = unusedMarks t := by
  have hnot {x : Text} (hx : '_' ∉ x) (marks : Nat) : ¬ tagOf marks <:+: x :=
    fun h =>
    hx (h.subset (underscore_mem_tagOf marks))
  refine unusedMarks_congr fun marks => ?_
  have hnew := newline_not_mem_tagOf marks
  rw [infix_append_cons hnew, infix_append_cons hnew]
  simp [hnot ha, hnot hb]

/-! ## Placeholders -/

variable {table : LiteralTable}

/-- Plain characters behind a text are masked as they stand. -/
theorem maskFrom_map_plain (u : Text) : ∀ {index : Nat} {segs : List Segment},
    table.maskFrom index (segs ++ u.map .plain) = table.maskFrom index segs ++ u
  | index, [] => by
    induction u with
    | nil => rfl
    | cons c u ih => simpa [maskFrom] using ih
  | index, .plain c :: segs => by simp [maskFrom, maskFrom_map_plain u]
  | index, .comment text :: segs => by simp [maskFrom, maskFrom_map_plain u]
  | index, .quoted text :: segs => by simp [maskFrom, maskFrom_map_plain u]

end LiteralTable

/-- Nothing in an inert text is masked. -/
theorem protect_inert {t : Text} (h : inert t = true) :
    protect t = .ok (t, ⟨LiteralTable.unusedMarks t, []⟩) := by
  have hliterals : (t.map Segment.plain).filterMap Segment.literal? = [] := by
    rw [List.filterMap_map]
    exact List.filterMap_eq_nil_iff.2 fun _ _ => rfl
  refine protect_eq_ok_iff.2 ⟨_, segments_inert h, ?_, ?_⟩
  · rw [LiteralTable.ofSegments, hliterals]
  · exact (@LiteralTable.maskFrom_map_plain _ t 0 []).symm

/-- A text on lines of its own is protected as it is by itself. -/
theorem protect_framed {a b t masked : Text} {table : LiteralTable}
    (ha : inert a = true) (hb : inert b = true) (ha' : '_' ∉ a) (hb' : '_' ∉ b)
    (h : protect t = .ok (masked, table)) :
    protect (a ++ '\n' :: (t ++ '\n' :: b)) =
      .ok (a ++ '\n' :: (masked ++ '\n' :: b), table) := by
  obtain ⟨segs, hsegs, rfl, rfl⟩ := protect_eq_ok_iff.1 h
  have hbehind := segments_append_newline (segments_inert hb) hsegs
  have hline : segments ('\n' :: (t ++ '\n' :: b)) =
      .ok (.plain '\n' :: (segs ++ .plain '\n' :: b.map .plain)) :=
    segments_plain rfl (opensComment_of_ne (by decide) (by decide) _) hbehind
  have hcut : opensComment a.getLast? (some '\n') = false := by
    cases a.getLast? <;> simp [opensComment]
  have hframe :=
    segments_inert_append (t := '\n' :: (t ++ '\n' :: b)) ha hcut hline
  refine protect_eq_ok_iff.2 ⟨_, hframe, ?_, ?_⟩
  · simp only [LiteralTable.ofSegments, LiteralTable.unusedMarks_framed ha' hb',
      List.filterMap_append, List.filterMap_cons, LiteralTable.filterMap_plain,
      Segment.literal?, List.nil_append, List.append_nil]
  · rw [LiteralTable.maskFrom_plain_append, LiteralTable.maskFrom]
    exact congrArg (a ++ '\n' :: ·)
      (LiteralTable.maskFrom_map_plain ('\n' :: b)).symm

end SqlRiver
