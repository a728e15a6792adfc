import SqlRiver.Proofs.Literal.Spans

/-!
# Changing the parts of a text by themselves

A function of texts distributes over separators if a character outside of words
divides every text into two parts that the function changes each by itself.
Putting quoted spans back is such a function: a placeholder is a word, so none
reaches over the separator, whatever stands on its sides. From this one law
follows what the function does to texts that are put together with spaces,
commas, brackets and keywords.

Main definitions and statements:

* `Distributes`: the law, for any function of texts.
* `distributes_restore`: quoted spans are put back part by part.
* `Passes`: a text that stays when it stands before another one.
* `Distributes.join`: texts put together with separators.
-/

namespace SqlRiver

open Text

/-- Each side of a character outside of words is changed by itself, and a text
without underscores stays as it is. -/
structure Distributes (f : Text → Text) : Prop where
  between {c : Char} : isWordChar c = false →
    ∀ a b, f (a ++ c :: b) = f a ++ c :: f b
  stays {t : Text} : '_' ∉ t → f t = t

/-- Restoration distributes: a placeholder is a run of characters of words, with
underscores in it. -/
theorem distributes_restore (table : LiteralTable) :
    Distributes table.restore :=
  ⟨LiteralTable.restore_append_cons, LiteralTable.restore_of_not_mem⟩

theorem distributes_id : Distributes id := ⟨fun _ _ _ => rfl, fun _ => rfl⟩

/-- A text stays, and what stands behind it is changed by itself. -/
def Passes (f : Text → Text) (s : Text) : Prop := ∀ t, f (s ++ t) = s ++ f t

theorem passes_nil (f : Text → Text) : Passes f [] := fun _ => rfl

theorem Passes.append {f : Text → Text} {s s' : Text} (h : Passes f s)
    (h' : Passes f s') : Passes f (s ++ s') := by
  intro t
  rw [List.append_assoc, h, h', List.append_assoc]

namespace Distributes

variable {f : Text → Text} {c : Char} {s t : Text} (hf : Distributes f)
include hf

theorem nil : f [] = [] := hf.stays List.not_mem_nil

theorem cons (hc : isWordChar c = false) (t : Text) :
    f (c :: t) = c :: f t := by
  have h := hf.between hc [] t
  rwa [hf.nil] at h

/-- Characters outside of words stay before any text. -/
theorem passes (hs : ∀ c ∈ s, isWordChar c = false) : Passes f s := by
  intro t
  induction s with
  | nil => rfl
  | cons c s ih =>
    obtain ⟨hc, hs⟩ := List.forall_mem_cons.1 hs
    rw [List.cons_append, hf.cons hc, ih hs, List.cons_append]

theorem passes_spaces (n : Nat) : Passes f (spaces n) :=
  hf.passes fun c hc => by rw [List.eq_of_mem_replicate hc]; rfl

/-- A text without underscores stays before a character outside of words. -/
theorem passes_concat (hs : '_' ∉ s) (hc : isWordChar c = false) :
    Passes f (s ++ [c]) := by
  intro t
  rw [List.append_assoc, List.singleton_append, hf.between hc, hf.stays hs,
    List.append_assoc, List.singleton_append]

/-- Characters outside of words stay behind any text. -/
theorem append_of_forall (hs : ∀ c ∈ s, isWordChar c = false) (t : Text) :
    f (t ++ s) = f t ++ s := by
  cases s with
  | nil => rw [List.append_nil, List.append_nil]
  | cons c s =>
    obtain ⟨hc, hs⟩ := List.forall_mem_cons.1 hs
    have hstays : f s = s := by
      have h := hf.passes hs []
      rwa [List.append_nil, hf.nil, List.append_nil] at h
    rw [hf.between hc, hstays]

/-- The parts of a text are changed by themselves if characters outside of words
stand between them. -/
theorem join {sep : Text} (h₀ : sep ≠ [])
    (hsep : ∀ c ∈ sep, isWordChar c = false) :
    ∀ parts : List Text, f (Text.join sep parts) = Text.join sep (parts.map f)
  | [] => hf.nil
  | [part] => rfl
  | part :: next :: parts => by
    obtain ⟨c, sep, rfl⟩ := List.exists_cons_of_ne_nil h₀
    obtain ⟨hc, hrest⟩ := List.forall_mem_cons.1 hsep
    have ih := join h₀ hsep (next :: parts)
    show f (part ++ (c :: sep) ++ Text.join (c :: sep) (next :: parts)) =
      f part ++ (c :: sep) ++ Text.join (c :: sep) ((next :: parts).map f)
    rw [List.append_assoc, List.cons_append, hf.between hc, hf.passes hrest, ih]
    simp

theorem rowText (row : List Text) :
    f (SqlRiver.rowText row) = SqlRiver.rowText (row.map f) :=
  hf.join (by simp) (by decide) row

end Distributes

end SqlRiver
