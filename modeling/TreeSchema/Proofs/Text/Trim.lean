import Mathlib.Data.List.DropRight
import TreeSchema.Text.Blank

/-! Trimmed lists. What is left of a list is bare at both ends, with nothing around it
but what is trimmed, and no other list is both. -/
namespace TreeSchema.Text

variable {α : Type} {p : α → Bool} {xs core : List α}

/-- Whether there is nothing to trim at the ends of a list. -/
structure Bare (p : α → Bool) (xs : List α) : Prop where
  first : ∀ x ∈ xs.head?, p x = false
  last : ∀ x ∈ xs.getLast?, p x = false

/-- Whether a list is another one with nothing around it but what is trimmed. -/
def Wraps (p : α → Bool) (core xs : List α) : Prop :=
  ∃ before after, (∀ x ∈ before, p x = true) ∧ (∀ x ∈ after, p x = true) ∧
    xs = before ++ core ++ after

theorem bare_of_forall (h : ∀ x ∈ xs, p x = false) : Bare p xs where
  first x hFirst := h x (List.mem_of_mem_head? hFirst)
  last x hLast := h x (List.mem_of_mem_getLast? hLast)

theorem bare_of_ends {first last : α} (hFirst : p first = false) (hLast : p last = false) :
    Bare p (first :: (xs ++ [last])) where
  first x hx := by
    cases hx
    exact hFirst
  last x hx := by
    rw [← List.cons_append, List.getLast?_concat] at hx
    cases hx
    exact hLast

/-- The end is trimmed as in the library. -/
theorem dropEnd_eq (p : α → Bool) (xs : List α) : dropEnd p xs = xs.rdropWhile p := rfl

theorem dropEnd_append_of_all {after : List α} (h : ∀ x ∈ after, p x = true) :
    dropEnd p (xs ++ after) = dropEnd p xs := by
  rw [dropEnd, List.reverse_append, List.dropWhile_append_of_pos (by simpa using h), dropEnd]

theorem Bare.dropWhile_eq (h : Bare p xs) : xs.dropWhile p = xs := by
  cases xs with
  | nil => rfl
  | cons x xs => exact List.dropWhile_cons_of_neg (by rw [h.first x rfl]; decide)

theorem Bare.trimBy_eq (h : Bare p xs) : trimBy p xs = xs := by
  rw [trimBy, h.dropWhile_eq, dropEnd_eq, List.rdropWhile_eq_self_iff]
  intro hSome hLast
  rw [h.last _ (List.getLast_mem_getLast? hSome)] at hLast
  cases hLast

theorem wraps_trimBy (p : α → Bool) (xs : List α) : Wraps p (trimBy p xs) xs := by
  refine ⟨xs.takeWhile p, (xs.dropWhile p).rtakeWhile p, fun x hx => List.mem_takeWhile_imp hx,
    fun x hx => List.mem_rtakeWhile_imp hx, ?_⟩
  rw [trimBy, dropEnd_eq, List.append_assoc, List.rdropWhile_append_rtakeWhile,
    List.takeWhile_append_dropWhile]

theorem bare_trimBy (p : α → Bool) (xs : List α) : Bare p (trimBy p xs) := by
  constructor
  · intro x hFirst
    obtain ⟨rest, hRest⟩ : trimBy p xs <+: xs.dropWhile p := List.rdropWhile_prefix p _
    have hHead := List.head?_dropWhile_not p xs
    rwa [← hRest, List.head?_append, hFirst] at hHead
  · intro x hLast
    obtain ⟨hSome, rfl⟩ := List.mem_getLast?_eq_getLast hLast
    exact Bool.eq_false_iff.mpr (List.rdropWhile_last_not p _ hSome)

/-- What is around a bare list is all that is trimmed. -/
theorem Bare.trimBy_of_wraps (hBare : Bare p core) (hWraps : Wraps p core xs) :
    trimBy p xs = core := by
  obtain ⟨before, after, hBefore, hAfter, rfl⟩ := hWraps
  rw [trimBy, List.append_assoc, List.dropWhile_append_of_pos hBefore]
  cases core with
  | nil => rw [List.nil_append, List.dropWhile_eq_nil_iff.mpr hAfter]; rfl
  | cons x core =>
      rw [List.cons_append, List.dropWhile_cons_of_neg (by rw [hBare.first x rfl]; decide),
        ← List.cons_append, dropEnd_append_of_all hAfter]
      calc dropEnd p (x :: core)
        _ = trimBy p (x :: core) := by rw [trimBy, hBare.dropWhile_eq]
        _ = x :: core := hBare.trimBy_eq

theorem Wraps.trans {ys : List α} (h : Wraps p core xs) (h' : Wraps p xs ys) :
    Wraps p core ys := by
  obtain ⟨before, after, hBefore, hAfter, rfl⟩ := h
  obtain ⟨before', after', hBefore', hAfter', rfl⟩ := h'
  refine ⟨before' ++ before, after ++ after', ?_, ?_, by simp only [List.append_assoc]⟩
  · exact List.forall_mem_append.mpr ⟨hBefore', hBefore⟩
  · exact List.forall_mem_append.mpr ⟨hAfter, hAfter'⟩

/-- What is trimmed makes no difference. -/
theorem Wraps.trimBy_eq (h : Wraps p core xs) : trimBy p xs = trimBy p core :=
  (bare_trimBy p core).trimBy_of_wraps ((wraps_trimBy p core).trans h)

theorem trimBy_eq_iff : trimBy p xs = core ↔ Bare p core ∧ Wraps p core xs := by
  constructor
  · rintro rfl
    exact ⟨bare_trimBy p xs, wraps_trimBy p xs⟩
  · rintro ⟨hBare, hWraps⟩
    exact hBare.trimBy_of_wraps hWraps

end TreeSchema.Text
