import TreeSchema.Proofs.Span
import TreeSchema.Proofs.Tree.RoundTrip

/-! Where errors in written trees stand: at a mark, at a character that is none, or at the
end of the text. So they lie in the text. -/
namespace TreeSchema.Tree

variable {text : String} {e : SyntaxError}

/-- How far a text has been taken apart: the marks found before byte `position` lie in it,
and `cs` is left. -/
structure Passed (text : String) (position : Nat) (before : List PlacedMark) (cs : List Char) :
    Prop where
  rest : ∃ passed, text.toList = passed ++ cs ∧ position = textSize passed
  marks : ∀ m ∈ before, m.2.LiesIn text

namespace Passed

variable {position : Nat} {before : List PlacedMark} {cs : List Char}

theorem start (text : String) : Passed text 0 [] text.toList :=
  ⟨⟨[], rfl, rfl⟩, List.forall_mem_nil _⟩

theorem skip (slice : List Char) (h : Passed text position before (slice ++ cs)) :
    Passed text (position + textSize slice) before cs := by
  obtain ⟨⟨passed, hText, rfl⟩, hMarks⟩ := h
  exact ⟨⟨passed ++ slice, by rw [hText, List.append_assoc], (textSize_append _ _).symm⟩, hMarks⟩

theorem liesIn (slice : List Char) (h : Passed text position before (slice ++ cs)) :
    (Span.ofSize position (textSize slice)).LiesIn text := by
  obtain ⟨⟨passed, hText, rfl⟩, -⟩ := h
  exact Span.liesIn_ofSize hText

theorem mark (m : Mark) (slice : List Char) (h : Passed text position before (slice ++ cs)) :
    Passed text (position + textSize slice)
      ((m, .ofSize position (textSize slice)) :: before) cs :=
  ⟨(h.skip slice).rest, List.forall_mem_cons.mpr ⟨h.liesIn slice, h.marks⟩⟩

/-- All marks of a text lie in it, and so does the first character that is none. -/
theorem marksFrom (h : Passed text position before cs) :
    match marksFrom position before cs with
    | .ok ms => ∀ m ∈ ms, m.2.LiesIn text
    | .error e => e.span.LiesIn text := by
  fun_induction Tree.marksFrom position before cs with
  | case1 position before => exact fun m hMember => h.marks m (List.mem_reverse.mp hMember)
  | case2 position before rest ih => exact ih (h.mark .nil ['n', 'i', 'l'])
  | case3 position before rest ih => exact ih (h.mark .opening ['<'])
  | case4 position before rest ih => exact ih (h.mark .dot ['.'])
  | case5 position before rest ih => exact ih (h.mark .closing ['>'])
  | case6 position before c rest _ _ _ _ hBlank ih => exact ih (h.skip [c])
  | case7 position before c rest => exact h.liesIn [c]

end Passed

namespace Progress

variable {p : Progress}

end Progress

end TreeSchema.Tree
