/-! Places in a text, counted in bytes of its UTF-8 form. -/
namespace TreeSchema

/-- How many bytes a text takes. -/
def textSize : List Char → Nat
  | [] => 0
  | c :: cs => c.utf8Size + textSize cs

@[simp] theorem textSize_nil : textSize [] = 0 := rfl

@[simp] theorem textSize_cons (c : Char) (cs : List Char) :
    textSize (c :: cs) = c.utf8Size + textSize cs := rfl

@[simp] theorem textSize_append (cs cs' : List Char) :
    textSize (cs ++ cs') = textSize cs + textSize cs' := by
  induction cs with
  | nil => simp
  | cons c cs ih => simp [ih, Nat.add_assoc]

@[simp] theorem textSize_eq_zero_iff {cs : List Char} : textSize cs = 0 ↔ cs = [] := by
  cases cs with
  | nil => simp
  | cons c cs =>
      have := c.utf8Size_pos
      simp
      omega

/-- Of two ways to cut a text, the one that takes fewer bytes first is the finer cut. -/
theorem exists_append_of_textSize_le {before rest before' rest' : List Char}
    (h : before ++ rest = before' ++ rest') (hSize : textSize before ≤ textSize before') :
    ∃ between, before' = before ++ between ∧ rest = between ++ rest' := by
  rcases List.append_eq_append_iff.mp h with ⟨between, hBefore, hRest⟩ | ⟨between, hBefore, hRest⟩
  · exact ⟨between, hBefore, hRest⟩
  · rw [hBefore, textSize_append] at hSize
    have hNone : between = [] := textSize_eq_zero_iff.mp (by omega)
    subst hNone
    exact ⟨[], by simpa using hBefore.symm, by simpa using hRest.symm⟩

/-- A half-open range of bytes. -/
structure Span where
  start : Nat
  stop : Nat
  deriving DecidableEq, Repr, Inhabited

/-- The span of `size` bytes from `start` on. -/
def Span.ofSize (start size : Nat) : Span :=
  ⟨start, start + size⟩

/-- The empty span at a position, where something is missing. -/
def Span.empty (position : Nat) : Span :=
  ⟨position, position⟩

end TreeSchema
