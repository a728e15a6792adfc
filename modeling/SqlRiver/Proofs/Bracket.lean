import Mathlib.Data.List.Basic
import SqlRiver.Proofs.Text.Case

/-!
# Brackets of texts put together

Depths add up when texts are put one after the other. A cut at the top level of
a balanced text leaves two balanced texts, and this is what all readers rely on.

Main definitions and statements:

* `isBalanced_iff`: balance in terms of the depths of all starts of a text.
* `isBalanced_append`: cuts at the top level.
* `unwrap?_eq_some_iff`: the bracket that opens a text and its partner.
* `NoTop`: no character of the top level satisfies a test,
  `topPosition?_eq_none_iff`, `topPosition?_eq_some_iff`: the first one that
  does.
-/

namespace SqlRiver

/-! ## Depth -/

@[simp] theorem depth_nil : depth [] = 0 := rfl

@[simp] theorem depth_cons (c : Char) (t : Text) :
    depth (c :: t) = depthStep c + depth t :=
  rfl

@[simp] theorem depth_append (t u : Text) :
    depth (t ++ u) = depth t + depth u := by
  induction t with
  | nil => simp
  | cons c t ih => simp [ih, Int.add_assoc]

/-- A text without brackets does not move the depth. -/
theorem depth_eq_zero {t : Text} (h : ∀ c ∈ t, depthStep c = 0) :
    depth t = 0 := by
  induction t with
  | nil => rfl
  | cons c t ih =>
    simp [h c (by simp), ih fun d hd => h d (List.mem_cons_of_mem _ hd)]

/-- Letter case does not move the depth. -/
theorem depth_of_lower_eq :
    ∀ {t u : Text}, t.lower = u.lower → depth t = depth u
  | [], [], _ => rfl
  | [], _ :: _, h => by cases h
  | _ :: _, [], h => by cases h
  | c :: t, d :: u, h => by
    obtain ⟨hc, h⟩ := List.cons.inj h
    rw [depth_cons, depth_cons, ← depthStep_toLower c, hc, depthStep_toLower,
      depth_of_lower_eq h]

/-! ## Balance -/

/-- Brackets are balanced if no start of the text closes more of them than are
open, and in the end all are closed. -/
theorem balancedFrom_iff :
    ∀ (n : Nat) (t : Text), balancedFrom n t = true ↔
      (n : Int) + depth t = 0 ∧ ∀ u v, t = u ++ v → 0 ≤ (n : Int) + depth u
  | n, [] => by
    simp only [balancedFrom, beq_iff_eq, depth_nil, Int.add_zero]
    constructor
    · rintro rfl
      refine ⟨rfl, fun u v h => ?_⟩
      obtain ⟨rfl, -⟩ := List.append_eq_nil_iff.1 h.symm
      simp
    · rintro ⟨h, -⟩
      exact Int.ofNat.inj h
  | n, c :: t => by
    -- the starts of `c :: t` are the empty one and those of `t` behind `c`
    have starts (d : Int) (hd : depthStep c = d) :
        (∀ u v, c :: t = u ++ v → 0 ≤ (n : Int) + depth u) ↔
          ∀ u v, t = u ++ v → 0 ≤ (n : Int) + d + depth u := by
      constructor
      · rintro h u v rfl
        have := h (c :: u) v rfl
        simp only [depth_cons, hd] at this
        omega
      · intro h u v huv
        cases u with
        | nil => simp
        | cons c' u =>
          obtain ⟨rfl, htuv⟩ := List.cons.inj huv
          have := h u v htuv
          simp only [depth_cons, hd]
          omega
    unfold balancedFrom
    split
    · next hc =>
      have hd : depthStep c = 1 := by simp [depthStep, hc]
      rw [balancedFrom_iff (n + 1) t, starts 1 hd, depth_cons, hd]
      simp only [Int.natCast_add, Int.natCast_one]
      rw [Int.add_assoc]
    · next hc =>
      split
      · next hc' =>
        have hd : depthStep c = -1 := by simp [depthStep, hc, hc']
        split
        · simp only [Bool.false_eq_true, Int.natCast_zero, false_iff, not_and]
          intro _ h
          have := h [c] t rfl
          simp [hd] at this
        · next n =>
          rw [balancedFrom_iff n t, starts (-1) hd, depth_cons, hd]
          have (x : Int) : ((n + 1 : Nat) : Int) + -1 + x = n + x := by omega
          simp only [this, ← Int.add_assoc]
      · next hc' =>
        have hd : depthStep c = 0 := by simp [depthStep, hc, hc']
        rw [balancedFrom_iff n t, starts 0 hd, depth_cons, hd]
        simp

/-- Brackets are balanced if the depth is zero at the end and negative
nowhere. -/
theorem isBalanced_iff {t : Text} :
    isBalanced t = true ↔ depth t = 0 ∧ ∀ u v, t = u ++ v → 0 ≤ depth u := by
  simpa [isBalanced] using balancedFrom_iff 0 t

theorem depth_of_isBalanced {t : Text} (h : isBalanced t = true) :
    depth t = 0 :=
  (isBalanced_iff.1 h).1

/-- A cut at the top level leaves balanced parts. -/
theorem isBalanced_append {t u : Text} (ht : depth t = 0) :
    isBalanced (t ++ u) = true ↔ isBalanced t = true ∧ isBalanced u = true := by
  simp only [isBalanced_iff, depth_append, ht, Int.zero_add, true_and]
  constructor
  · rintro ⟨hu, h⟩
    refine ⟨fun a b hab => h a (b ++ u) (by simp [hab]), hu, fun a b hab => ?_⟩
    have := h (t ++ a) b (by simp [hab])
    simpa [ht] using this
  · rintro ⟨h₁, hu, h₂⟩
    refine ⟨hu, fun a b hab => ?_⟩
    rcases List.append_eq_append_iff.1 hab with ⟨x, rfl, rfl⟩ | ⟨x, rfl, rfl⟩
    · rw [depth_append, ht, Int.zero_add]
      exact h₂ x b rfl
    · exact h₁ a x rfl

/-- A text without brackets is balanced. -/
theorem isBalanced_of_forall {t : Text} (h : ∀ c ∈ t, depthStep c = 0) :
    isBalanced t = true := by
  refine isBalanced_iff.2 ⟨depth_eq_zero h, ?_⟩
  rintro u v rfl
  exact Int.le_of_eq (depth_eq_zero fun c hc =>
    h c (List.mem_append_left _ hc)).symm

/-- Brackets around a balanced text. -/
theorem isBalanced_brackets {x : Text} (h : isBalanced x = true) :
    isBalanced ('(' :: (x ++ [')'])) = true := by
  obtain ⟨hd, hpos⟩ := isBalanced_iff.1 h
  have hopen : depthStep '(' = 1 := rfl
  have hclose : depthStep ')' = -1 := rfl
  refine isBalanced_iff.2 ⟨by simp [hd, hopen, hclose], fun u v e => ?_⟩
  cases u with
  | nil => exact Int.le_refl 0
  | cons c u =>
    obtain ⟨rfl, hx⟩ := List.cons.inj e
    rw [depth_cons, hopen]
    rcases List.append_eq_append_iff.1 hx with ⟨z, rfl, hz⟩ | ⟨z, rfl, -⟩
    · -- the closing bracket may be passed
      have : -1 ≤ depth z := by
        cases z with
        | nil => simp
        | cons c z =>
          obtain ⟨rfl, hnil⟩ := List.cons.inj hz
          simp [(List.append_eq_nil_iff.1 hnil.symm).1, hclose]
      rw [depth_append, hd]
      omega
    · have := hpos u z rfl
      omega

/-! ## The partner of a bracket -/

/-- The partner of a bracket is the closing bracket behind a balanced text. -/
theorem closeFrom_eq_some_iff : ∀ {n : Nat} {t : Text} {pos : Nat},
    closeFrom n t = some pos ↔
      ∃ a b, t = a ++ ')' :: b ∧ a.length = pos ∧ balancedFrom n a = true
  | n, [], pos => by simp [closeFrom]
  | n, c :: t, pos => by
    -- the text before the partner starts with `c`, unless `c` is the partner
    have step (m : Nat) (hm : ∀ a, balancedFrom n (c :: a) = balancedFrom m a)
        (hc : ¬ (c = ')' ∧ balancedFrom n [] = true)) :
        (closeFrom m t).map (· + 1) = some pos ↔ ∃ a b, c :: t = a ++ ')' :: b ∧
        a.length = pos ∧ balancedFrom n a = true := by
      simp only [Option.map_eq_some_iff, closeFrom_eq_some_iff]
      constructor
      · rintro ⟨_, ⟨a, b, rfl, rfl, ha⟩, rfl⟩
        exact ⟨c :: a, b, rfl, rfl, (hm a).trans ha⟩
      · rintro ⟨a, b, hab, rfl, ha⟩
        cases a with
        | nil => exact absurd ⟨(List.cons.inj hab).1, ha⟩ hc
        | cons c' a =>
          obtain ⟨rfl, rfl⟩ := List.cons.inj hab
          exact ⟨_, ⟨a, b, rfl, rfl, (hm a).symm.trans ha⟩, rfl⟩
    unfold closeFrom
    split
    · next h =>
      refine step (n + 1) (fun a => by simp [balancedFrom, h]) ?_
      rintro ⟨rfl, -⟩
      simp at h
    · next h =>
      split
      · next h' =>
        obtain rfl : c = ')' := by simpa using h'
        cases n with
        | zero =>
          simp only [Option.some.injEq]
          constructor
          · rintro rfl
            exact ⟨[], t, rfl, rfl, rfl⟩
          · rintro ⟨a, b, hab, rfl, ha⟩
            cases a with
            | nil => rfl
            | cons c' a =>
              obtain ⟨rfl, -⟩ := List.cons.inj hab
              simp [balancedFrom] at ha
        | succ n =>
          exact step n
            (fun a => by simp [balancedFrom]) (by simp [balancedFrom])
      · next h' =>
        refine step n (fun a => by simp [balancedFrom, h, h']) ?_
        rintro ⟨rfl, -⟩
        simp at h'

/-- A text that closes more than the `n` brackets open before it has the bracket
that closes `n + 1` of them. -/
theorem exists_closeFrom :
    ∀ {n : Nat} {t : Text}, (n : Int) + depth t < 0 →
      ∃ pos, closeFrom n t = some pos
  | n, [], h => by
    rw [depth_nil] at h
    omega
  | n, c :: t, h => by
    rw [depth_cons] at h
    unfold closeFrom
    split
    · next hc =>
      have hd : depthStep c = 1 := by simp [depthStep, hc]
      obtain ⟨pos, hpos⟩ := exists_closeFrom (n := n + 1) (t := t) (by omega)
      exact ⟨pos + 1, by rw [hpos]; rfl⟩
    · next hc =>
      split
      · next hc' =>
        have hd : depthStep c = -1 := by simp [depthStep, hc, hc']
        cases n with
        | zero => exact ⟨0, rfl⟩
        | succ n =>
          obtain ⟨pos, hpos⟩ := exists_closeFrom (n := n) (t := t) (by omega)
          exact ⟨pos + 1, by simp only [hpos]; rfl⟩
      · next hc' =>
        have hd : depthStep c = 0 := by simp [depthStep, hc, hc']
        obtain ⟨pos, hpos⟩ := exists_closeFrom (n := n) (t := t) (by omega)
        exact ⟨pos + 1, by rw [hpos]; rfl⟩

/-- The bracket that opens a text holds the balanced text up to its partner. -/
theorem unwrap?_eq_some_iff {t inside rest : Text} :
    unwrap? t = some (inside, rest) ↔
      t = '(' :: inside ++ ')' :: rest ∧ isBalanced inside = true := by
  unfold unwrap?
  split
  · next u =>
    simp only [Option.map_eq_some_iff, closeFrom_eq_some_iff]
    constructor
    · rintro ⟨_, ⟨a, b, rfl, rfl, ha⟩, hab⟩
      simp only [List.take_left', Prod.mk.injEq] at hab
      obtain ⟨rfl, rfl⟩ := hab
      refine ⟨?_, ha⟩
      simp
    · rintro ⟨hu, ha⟩
      obtain ⟨-, rfl⟩ := List.cons.inj hu
      refine ⟨_, ⟨inside, rest, rfl, rfl, ha⟩, ?_⟩
      simp
  · next h =>
    simp only [reduceCtorEq, false_iff, not_and]
    rintro rfl
    exact absurd rfl (h _)

/-! ## The top level -/

/-- No character of the top level satisfies the test. -/
def NoTop (p : Char → Bool) (t : Text) : Prop :=
  ∀ a c b, t = a ++ c :: b → depth a = 0 → p c = false

theorem noTop_nil (p : Char → Bool) : NoTop p [] := by
  intro a c b h
  simp at h

/-- A cut at the top level divides the top level. -/
theorem noTop_append {p : Char → Bool} {t u : Text} (ht : depth t = 0) :
    NoTop p (t ++ u) ↔ NoTop p t ∧ NoTop p u := by
  constructor
  · intro h
    constructor
    · rintro a c b rfl ha
      exact h a c (b ++ u) (by simp) ha
    · rintro a c b rfl ha
      exact h (t ++ a) c b (by simp) (by simp [ht, ha])
  · rintro ⟨h₁, h₂⟩ a c b hab ha
    rcases List.append_eq_append_iff.1 hab with ⟨x, rfl, rfl⟩ | ⟨x, rfl, hx⟩
    · refine h₂ x c b rfl ?_
      simpa [ht] using ha
    · cases x with
      | nil =>
        refine h₂ [] c b (by simpa using hx.symm) rfl
      | cons d x =>
        obtain ⟨rfl, rfl⟩ := List.cons.inj hx
        exact h₁ a c x rfl ha

theorem NoTop.left {p : Char → Bool} {t u : Text} (h : NoTop p (t ++ u)) :
    NoTop p t := by
  rintro a c b rfl
  exact h a c (b ++ u) (by simp)

theorem noTop_of_forall {p : Char → Bool} {t : Text}
    (h : ∀ c ∈ t, p c = false) : NoTop p t := by
  rintro a c b rfl -
  exact h c (by simp)

/-- No character of a kind is found if none stands at depth zero. -/
theorem topFrom_eq_none_iff {p : Char → Bool} :
    ∀ {d : Int} {t : Text}, topFrom p d t = none ↔ ∀ a c b, t = a ++ c :: b →
      d + depth a = 0 → p c = false
  | d, [] => by simp [topFrom]
  | d, c :: t => by
    rw [topFrom]
    split
    · next h =>
      obtain ⟨hd, hc⟩ := Bool.and_eq_true_iff.1 h
      simp only [reduceCtorEq, false_iff]
      intro h
      have := h [] c t rfl (by simpa using hd)
      rw [hc] at this
      cases this
    · next h =>
      rw [Option.map_eq_none_iff, topFrom_eq_none_iff]
      constructor
      · intro ih a c' b hab ha
        cases a with
        | nil =>
          obtain ⟨rfl, -⟩ := List.cons.inj hab
          simpa [show d = 0 by simpa using ha] using h
        | cons e a =>
          obtain ⟨rfl, htab⟩ := List.cons.inj hab
          exact ih a c' b htab (by rw [← ha, depth_cons, Int.add_assoc])
      · rintro h a c' b rfl ha
        exact h (c :: a) c' b rfl (by rw [← ha, depth_cons, Int.add_assoc])

/-- No character of a kind is found if none stands at the top level. -/
theorem topPosition?_eq_none_iff {p : Char → Bool} {t : Text} :
    topPosition? p t = none ↔ NoTop p t := by
  rw [topPosition?, topFrom_eq_none_iff]
  simp [NoTop]

/-- The first character of the top level that satisfies a test. -/
theorem topFrom_eq_some {p : Char → Bool} :
    ∀ {d : Int} {a : Text} {c : Char} {b : Text}, (∀ u e v, a = u ++ e :: v →
      d + depth u = 0 → p e = false) → d + depth a = 0 → p c = true →
      topFrom p d (a ++ c :: b) = some a.length
  | d, [], c, b, _, hd, hc => by
    have : d = 0 := by simpa using hd
    simp [topFrom, this, hc]
  | d, e :: a, c, b, h, hd, hc => by
    have he : (d == 0 && p e) = false := by
      by_cases h₀ : d = 0
      · simp [h [] e a rfl (by simpa using h₀)]
      · simp [h₀]
    have ih := topFrom_eq_some (d := d + depthStep e) (a := a) (c := c) (b := b)
      (fun u e' v huv hu =>
      h (e :: u) e' v (by simp [huv]) (by rw [← hu, depth_cons, Int.add_assoc]))
      (by rw [← hd, depth_cons, Int.add_assoc]) hc
    simp [topFrom, he, ih]

theorem topPosition?_append {p : Char → Bool} {a : Text} {c : Char}
    (ha : NoTop p a) (hd : depth a = 0) (hc : p c = true) (b : Text) :
    topPosition? p (a ++ c :: b) = some a.length :=
  topFrom_eq_some (by simpa [NoTop] using ha) (by simpa using hd) hc

/-- Where a test is first satisfied at the top level. -/
theorem topPosition?_eq_some {p : Char → Bool} {t : Text} {pos : Nat}
    (h : topPosition? p t = some pos) :
    ∃ a c b, t = a ++ c :: b ∧ a.length = pos ∧ depth a = 0 ∧ p c = true ∧
      NoTop p a := by
  have key : ∀ {d : Int} {t : Text} {pos : Nat}, topFrom p d t = some pos →
      ∃ a c b, t = a ++ c :: b ∧ a.length = pos ∧ d + depth a = 0 ∧ p c = true ∧
        ∀ u e v, a = u ++ e :: v → d + depth u = 0 → p e = false := by
    intro d t
    induction t generalizing d with
    | nil => intro pos h; simp [topFrom] at h
    | cons e t ih =>
      intro pos h
      rw [topFrom] at h
      split at h
      · next he =>
        obtain ⟨hd, he⟩ := Bool.and_eq_true_iff.1 he
        cases h
        exact ⟨[], e, t, rfl, rfl, by simpa using hd, he, by simp⟩
      · next he =>
        obtain ⟨n, hn, rfl⟩ := Option.map_eq_some_iff.1 h
        obtain ⟨a, c, b, rfl, rfl, hd, hc, hfirst⟩ := ih hn
        refine ⟨e :: a, c, b, rfl, rfl, by rw [← hd, depth_cons, Int.add_assoc],
          hc, ?_⟩
        intro u e' v huv hu
        cases u with
        | nil =>
          obtain ⟨rfl, -⟩ := List.cons.inj huv
          simpa [show d = 0 by simpa using hu] using he
        | cons _ u =>
          obtain ⟨rfl, rfl⟩ := List.cons.inj huv
          exact hfirst u e' v rfl (by rw [← hu, depth_cons, Int.add_assoc])
  obtain ⟨a, c, b, ht, ha, hd, hc, hfirst⟩ := key h
  exact ⟨a, c, b, ht, ha, by simpa using hd, hc, by simpa [NoTop] using hfirst⟩

end SqlRiver
