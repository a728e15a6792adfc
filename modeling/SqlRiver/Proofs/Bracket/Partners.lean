import Mathlib.Data.Set.Function
import SqlRiver.Proofs.Bracket
import SqlRiver.Proofs.Text.Bytes

/-!
# Partners of brackets

An opening bracket and its partner enclose a balanced text. No bracket is the
partner of two, so where all opening brackets have partners, these are paired
off with some of the closing ones. That all brackets are paired off is the same
as balance: a text that is not balanced has a closing bracket behind a balanced
text, or an opening one before a balanced text, and neither of these has a
partner.

Main definitions and statements:

* `Encloses`: two brackets, by their offsets, with a balanced text between them.
* `matchingClose_eq_some_iff`: partners enclose a balanced text.
* `exists_open`, `exists_unmatched`: which brackets are left open, and which
  have no partner.
* `partners_bijOn_iff`: balance is the pairing of all brackets.
-/

namespace SqlRiver

open Text

variable {a b c d t u v : Text} {off close pos : Nat}

/-! ## Partners -/

/-- There are an opening bracket at the first offset, a closing one at a later
offset, and a balanced text strictly between the two. -/
structure Encloses (t : Text) (off close : Nat) : Prop where
  opens : t.bytes[off]? = some '('.toUInt8
  closes : t.bytes[close]? = some ')'.toUInt8
  before : off < close
  inside : ∃ inside : Text, (t.bytes.take close).drop (off + 1) = inside.bytes ∧
    isBalanced inside = true

/-- A bracket opens at an offset of so many bytes before it. -/
theorem mem_opens_iff :
    t.bytes[off]? = some '('.toUInt8 ↔
    ∃ a b, t = a ++ '(' :: b ∧ byteSize a = off :=
  getElem?_bytes_iff (by decide)

/-- A bracket closes at an offset of so many bytes before it. -/
theorem mem_closes_iff :
    t.bytes[close]? = some ')'.toUInt8 ↔
    ∃ a b, t = a ++ ')' :: b ∧ byteSize a = close :=
  getElem?_bytes_iff (by decide)

/-- What stands behind the opening bracket, up to the closing one. -/
theorem bytes_between (a b d : Text) :
    ((bytes (a ++ '(' :: b ++ d)).take (byteSize (a ++ '(' :: b))).drop
      (byteSize a + 1) = bytes b := by
  have hopen : bytes (a ++ '(' :: b) = bytes a ++ ['('.toUInt8] ++ bytes b := by
    rw [bytes_append, bytes_cons, utf8EncodeChar_ascii (by decide),
      List.append_assoc]
  have hlen : byteSize a + 1 = (bytes a ++ ['('.toUInt8]).length := by
    rw [List.length_append, length_bytes]
    rfl
  rw [bytes_append, ← length_bytes (a ++ '(' :: b), List.take_left, hopen, hlen,
    List.drop_left]

/-- Two brackets enclose a balanced text. -/
theorem encloses_iff :
    Encloses t off close ↔
    ∃ a inside rest, t = a ++ '(' :: inside ++ ')' :: rest ∧ byteSize a = off ∧
      byteSize (a ++ '(' :: inside) = close ∧ isBalanced inside = true := by
  constructor
  · rintro ⟨hopen, hclose, hlt, inside, hinside, hb⟩
    obtain ⟨a, r, rfl, rfl⟩ := mem_opens_iff.1 hopen
    obtain ⟨a', rest, e, rfl⟩ := mem_closes_iff.1 hclose
    -- the closing bracket stands behind the opening one
    rcases List.append_eq_append_iff.1 e with ⟨z, rfl, hz⟩ | ⟨z, rfl, -⟩
    · cases z with
      | nil => cases hz
      | cons c z =>
        obtain ⟨rfl, rfl⟩ := List.cons.inj hz
        rw [e, bytes_between] at hinside
        rw [bytes_inj.1 hinside]
        exact ⟨a, inside, rest, by simp, rfl, rfl, hb⟩
    · rw [byteSize_append] at hlt
      omega
  · rintro ⟨a, inside, rest, rfl, rfl, rfl, hb⟩
    refine ⟨mem_opens_iff.2 ⟨a, inside ++ ')' :: rest, by simp, rfl⟩,
      mem_closes_iff.2 ⟨_, rest, rfl, rfl⟩, ?_, inside,
      bytes_between a inside (')' :: rest), hb⟩
    rw [byteSize_append]
    have := byteSize_pos (List.cons_ne_nil '(' inside)
    omega

/-- The bracket that closes is found behind a balanced text. -/
theorem closePosition?_eq_some_iff : closePosition? t pos = some close ↔
    ∃ a inside rest, t = a ++ '(' :: inside ++ ')' :: rest ∧ a.length = pos ∧
      (a ++ '(' :: inside).length = close ∧ isBalanced inside = true := by
  unfold closePosition?
  split
  · next r hr =>
    have ht : t = t.take pos ++ '(' :: r := by rw [← hr, List.take_append_drop]
    have hpos : (t.take pos).length = pos := by
      have hlt : pos < t.length := by
        refine Nat.lt_of_not_le fun hle => ?_
        rw [List.drop_eq_nil_of_le hle] at hr
        cases hr
      rw [List.length_take, Nat.min_eq_left (Nat.le_of_lt hlt)]
    simp only [Option.map_eq_some_iff, closeFrom_eq_some_iff]
    constructor
    · rintro ⟨_, ⟨inside, rest, rfl, rfl, hb⟩, rfl⟩
      refine ⟨t.take pos, inside, rest, by rw [List.append_assoc]; exact ht,
        hpos, ?_, hb⟩
      rw [List.length_append, hpos, List.length_cons]
      omega
    · rintro ⟨a, inside, rest, rfl, rfl, rfl, hb⟩
      rw [List.append_assoc, List.drop_left] at hr
      refine ⟨inside.length, ⟨inside, rest, ?_, rfl, hb⟩, ?_⟩
      · exact (List.cons.inj hr).2.symm
      · rw [List.length_append, List.length_cons]
        omega
  · next h =>
    simp only [reduceCtorEq, false_iff]
    rintro ⟨a, inside, rest, rfl, rfl, -, -⟩
    refine h (inside ++ ')' :: rest) ?_
    rw [List.append_assoc, List.drop_left]
    rfl

/-- The partner of an opening bracket is the closing one behind a balanced
text. -/
theorem matchingClose_eq_some_iff :
    matchingClose t off = some close ↔ Encloses t off close := by
  rw [encloses_iff]
  unfold matchingClose
  constructor
  · intro h
    split at h
    · next pos hpos =>
      obtain ⟨_, hclose, rfl⟩ := Option.map_eq_some_iff.1 h
      obtain ⟨a, inside, rest, rfl, ha, rfl, hb⟩ :=
        closePosition?_eq_some_iff.1 hclose
      obtain ⟨a', r, e, ha', rfl⟩ := position?_eq_some_iff.1 hpos
      rw [List.append_assoc] at e
      obtain ⟨rfl, -⟩ := List.append_inj e (ha.trans ha'.symm)
      exact ⟨a, inside, rest, rfl, rfl, (offset_append _ _).symm, hb⟩
    · cases h
  · rintro ⟨a, inside, rest, rfl, rfl, rfl, hb⟩
    have hpos : (a ++ '(' :: inside ++ ')' :: rest).position? (byteSize a) =
        some a.length :=
      position?_eq_some_iff.2 ⟨a, '(' :: inside ++ ')' :: rest, by simp, rfl,
        rfl⟩
    have hclose : closePosition? (a ++ '(' :: inside ++ ')' :: rest) a.length =
        some (a ++ '(' :: inside).length :=
      closePosition?_eq_some_iff.2 ⟨a, inside, rest, rfl, rfl, rfl, hb⟩
    rw [hpos]
    simp only [hclose, Option.map_some, offset_append]

/-! ## Brackets without a partner -/

/-- Where brackets are left open, the last one that is left open stands before a
balanced text. -/
theorem exists_open (h : 0 < depth t) :
    ∃ a b, t = a ++ '(' :: b ∧ isBalanced b = true := by
  generalize hn : t.length = n
  induction n using Nat.strongRecOn generalizing t with
  | _ n ih =>
    rcases List.eq_nil_or_concat' t with rfl | ⟨u, c, rfl⟩
    · cases h
    rw [List.length_append, List.length_singleton] at hn
    rw [depth_append, depth_cons, depth_nil, Int.add_zero] at h
    by_cases hopen : c = '('
    · subst hopen
      exact ⟨u, [], rfl, rfl⟩
    by_cases hclose : c = ')'
    · subst hclose
      have hstep : depthStep ')' = -1 := rfl
      -- `u` ends with a bracket, its partner comes behind another open one
      obtain ⟨a, b, rfl, hb⟩ := ih u.length (by omega) (by omega) rfl
      have hd : depth (a ++ '(' :: b) = depth a + 1 := by
        rw [depth_append, depth_cons, depth_of_isBalanced hb]
        rfl
      obtain ⟨a', b', rfl, hb'⟩ :=
        ih a.length (by rw [List.length_append] at hn; omega) (by omega) rfl
      refine ⟨a', b' ++ '(' :: (b ++ [')']), by simp, ?_⟩
      rw [isBalanced_append (depth_of_isBalanced hb')]
      exact ⟨hb', isBalanced_brackets hb⟩
    · have hstep : depthStep c = 0 := by simp [depthStep, hopen, hclose]
      obtain ⟨a, b, rfl, hb⟩ := ih u.length (by omega) (by omega) rfl
      refine ⟨a, b ++ [c], by simp, ?_⟩
      rw [isBalanced_append (depth_of_isBalanced hb)]
      exact ⟨hb, isBalanced_of_forall (by simpa using hstep)⟩

/-- A text that is not balanced has a closing bracket behind a balanced text or
an opening one before a balanced text. -/
theorem exists_unmatched (h : isBalanced t = false) :
    (∃ a b, t = a ++ ')' :: b ∧ isBalanced a = true) ∨
    ∃ a b, t = a ++ '(' :: b ∧ isBalanced b = true := by
  cases hclose : closeFrom 0 t with
  | some pos =>
    obtain ⟨a, b, rfl, -, ha⟩ := closeFrom_eq_some_iff.1 hclose
    exact .inl ⟨a, b, rfl, ha⟩
  | none =>
    refine .inr (exists_open ?_)
    -- no start of the text closes more brackets than it opens
    have hstarts : ∀ u v, t = u ++ v → 0 ≤ depth u := by
      rintro u v rfl
      refine Int.not_lt.1 fun hneg => ?_
      obtain ⟨pos, hpos⟩ := exists_closeFrom (n := 0) (t := u) (by omega)
      obtain ⟨a, b, rfl, -, ha⟩ := closeFrom_eq_some_iff.1 hpos
      rw [closeFrom_eq_some_iff.2 ⟨a, b ++ v, by simp, rfl, ha⟩] at hclose
      cases hclose
    have hne : depth t ≠ 0 := fun h₀ => by
      rw [isBalanced_iff.2 ⟨h₀, hstarts⟩] at h
      cases h
    have := hstarts t [] (by simp)
    omega

/-- An opening bracket before a balanced text has no partner. -/
theorem not_encloses_open (hb : isBalanced b = true) :
    ¬ Encloses (a ++ '(' :: b) (byteSize a) close := by
  rw [encloses_iff]
  rintro ⟨a', inside, rest, e, hsize, -, hi⟩
  rw [List.append_assoc] at e
  obtain rfl := eq_of_byteSize_eq e hsize.symm
  obtain ⟨-, rfl⟩ := List.cons.inj (List.append_cancel_left e)
  have := (isBalanced_iff.1 hb).2 (inside ++ [')']) rest (by simp)
  rw [depth_append, depth_of_isBalanced hi] at this
  cases this

/-- A closing bracket behind a balanced text is no partner. -/
theorem not_encloses_close (ha : isBalanced a = true) :
    ¬ Encloses (a ++ ')' :: b) off (byteSize a) := by
  rw [encloses_iff]
  rintro ⟨a', inside, rest, e, -, hsize, hi⟩
  obtain rfl := eq_of_byteSize_eq e hsize.symm
  obtain ⟨hd, hstarts⟩ := isBalanced_iff.1 ha
  have := hstarts a' ('(' :: inside) rfl
  have hopen : depthStep '(' = 1 := rfl
  rw [depth_append, depth_cons, depth_of_isBalanced hi] at hd
  omega

/-! ## Pairing -/

/-- The bracket that is left open before a balanced text is one and the same. -/
theorem eq_of_open (h : a ++ '(' :: b = c ++ '(' :: d)
    (hb : isBalanced b = true) (hd : isBalanced d = true) : a = c := by
  -- a bracket that opens later in the same text is closed there
  have key : ∀ {x y : Text}, isBalanced (x ++ '(' :: y) = true →
      isBalanced y = true → False := by
    intro x y hxy hy
    obtain ⟨hdepth, hstarts⟩ := isBalanced_iff.1 hxy
    have := hstarts x ('(' :: y) rfl
    have hopen : depthStep '(' = 1 := rfl
    rw [depth_append, depth_cons, depth_of_isBalanced hy] at hdepth
    omega
  rcases List.append_eq_append_iff.1 h with ⟨z, rfl, hz⟩ | ⟨z, rfl, hz⟩
  · cases z with
    | nil => simp
    | cons e z =>
      obtain ⟨-, rfl⟩ := List.cons.inj hz
      exact (key hb hd).elim
  · cases z with
    | nil => simp
    | cons e z =>
      obtain ⟨-, rfl⟩ := List.cons.inj hz
      exact (key hd hb).elim

/-- No bracket is the partner of two. -/
theorem Encloses.unique {off off' : Nat} (h : Encloses t off close)
    (h' : Encloses t off' close) : off = off' := by
  obtain ⟨a, b, r, rfl, rfl, hclose, hb⟩ := encloses_iff.1 h
  obtain ⟨a', b', r', e, rfl, hclose', hb'⟩ := encloses_iff.1 h'
  rw [eq_of_open (eq_of_byteSize_eq e (hclose.trans hclose'.symm)) hb hb']

section Balanced

variable (hbal : isBalanced t = true)
include hbal

/-- In a balanced text each opening bracket has a partner. -/
theorem exists_encloses_of_open (h : t.bytes[off]? = some '('.toUInt8) :
    ∃ close, Encloses t off close := by
  obtain ⟨a, r, rfl, rfl⟩ := mem_opens_iff.1 h
  obtain ⟨hd, hstarts⟩ := isBalanced_iff.1 hbal
  have ha := hstarts a ('(' :: r) rfl
  have hopen : depthStep '(' = 1 := rfl
  rw [depth_append, depth_cons] at hd
  obtain ⟨pos, hpos⟩ := exists_closeFrom (n := 0) (t := r) (by omega)
  obtain ⟨inside, rest, rfl, -, hb⟩ := closeFrom_eq_some_iff.1 hpos
  exact ⟨_, encloses_iff.2 ⟨a, inside, rest, by simp, rfl, rfl, hb⟩⟩

/-- In a balanced text each closing bracket is a partner. -/
theorem exists_encloses_of_close (h : t.bytes[close]? = some ')'.toUInt8) :
    ∃ off, Encloses t off close := by
  obtain ⟨a, rest, rfl, rfl⟩ := mem_closes_iff.1 h
  have hnext := (isBalanced_iff.1 hbal).2 (a ++ [')']) rest (by simp)
  have hclose : depthStep ')' = -1 := rfl
  rw [depth_append, depth_cons, depth_nil] at hnext
  obtain ⟨a, inside, rfl, hb⟩ := exists_open (t := a) (by omega)
  exact ⟨_, encloses_iff.2 ⟨a, inside, rest, rfl, rfl, rfl, hb⟩⟩

end Balanced

/-- A text in which all brackets are paired off is balanced. -/
theorem isBalanced_of_paired
    (hopens : ∀ off, t.bytes[off]? = some '('.toUInt8 →
      ∃ close, Encloses t off close)
    (hcloses : ∀ close, t.bytes[close]? = some ')'.toUInt8 →
      ∃ off, Encloses t off close) :
    isBalanced t = true := by
  cases hbal : isBalanced t with
  | true => rfl
  | false =>
    rcases exists_unmatched hbal with ⟨a, b, rfl, ha⟩ | ⟨a, b, rfl, hb⟩
    · obtain ⟨off, h⟩ := hcloses _ (mem_closes_iff.2 ⟨a, b, rfl, rfl⟩)
      exact absurd h (not_encloses_close ha)
    · obtain ⟨close, h⟩ := hopens _ (mem_opens_iff.2 ⟨a, b, rfl, rfl⟩)
      exact absurd h (not_encloses_open hb)

/-- The partner of an opening bracket encloses a balanced text with it, and is
answered exactly if there is one. Brackets are balanced exactly if all opening
ones are paired off with all closing ones. -/
theorem partners_bijOn_iff (t : Text) :
    (∀ off close, matchingClose t off = some close ↔ Encloses t off close) ∧
    (isBalanced t = true ↔
      Set.BijOn (matchingClose t) {off | t.bytes[off]? = some '('.toUInt8}
      (some '' {close | t.bytes[close]? = some ')'.toUInt8})) := by
  refine ⟨fun _ _ => matchingClose_eq_some_iff, fun hbal => ⟨?_, ?_, ?_⟩,
    fun ⟨hmaps, _, hsurj⟩ => ?_⟩
  · intro off hoff
    obtain ⟨close, h⟩ := exists_encloses_of_open hbal hoff
    exact ⟨close, h.closes, (matchingClose_eq_some_iff.2 h).symm⟩
  · intro off hoff off' _ heq
    obtain ⟨close, h⟩ := exists_encloses_of_open hbal hoff
    exact h.unique
      (matchingClose_eq_some_iff.1 (heq ▸ matchingClose_eq_some_iff.2 h))
  · rintro _ ⟨close, hclose, rfl⟩
    obtain ⟨off, h⟩ := exists_encloses_of_close hbal hclose
    exact ⟨off, h.opens, matchingClose_eq_some_iff.2 h⟩
  · refine isBalanced_of_paired (fun off hoff => ?_) fun close hclose => ?_
    · obtain ⟨close, -, h⟩ := hmaps hoff
      exact ⟨close, matchingClose_eq_some_iff.1 h.symm⟩
    · obtain ⟨off, -, h⟩ := hsurj ⟨close, hclose, rfl⟩
      exact ⟨off, matchingClose_eq_some_iff.1 h⟩

end SqlRiver
