import TreeSchema.Proofs.Token.Tiling

/-! Scanning texts that are put together. Which lexemes a text spells out does not depend on
the place at which it stands. Two texts, one after the other, spell out what each of them does
apart, unless the second starts with a character that could go on with a lexeme. -/
namespace TreeSchema

/-- The lexemes that a text spells out, with any blanks around them. -/
inductive Spells : List Char → List Lexeme → Prop where
  | nil : Spells [] []
  | blank {c : Char} {cs : List Char} {ls : List Lexeme} (blank : Text.isBlank c = true)
      (spells : Spells cs ls) : Spells (c :: cs) ls
  | cons {l : Lexeme} {slice rest : List Char} {ls : List Lexeme} (written : l.IsWritten slice)
      (stops : ¬ l.Continues rest) (spells : Spells rest ls) : Spells (slice ++ rest) (l :: ls)

theorem spells_of_tokensFrom {position : Nat} {cs : List Char} {ts : List Token}
    (h : tokensFrom position cs = .ok ts) : Spells cs (ts.map (·.lexeme)) := by
  fun_induction tokensFrom position cs generalizing ts with
  | case1 position =>
      cases h
      exact .nil
  | case2 position c cs hBlank ih => exact .blank hBlank (ih h)
  | case3 position c cs hBlank notes hError => cases h
  | case4 position c cs hBlank cut hCut _ token =>
      rename_i ih
      obtain ⟨others, hRest, rfl⟩ := map_eq_ok_iff.mp h
      obtain ⟨slice, hText, -, hWritten, hStop⟩ := Lexeme.first_eq_ok_iff.mp hCut
      rw [hText]
      exact .cons hWritten hStop (ih hRest)

/-- Whether a text starts with a character that goes on with no lexeme before it. -/
def Breaks (cs : List Char) : Prop :=
  ∀ c ∈ cs.head?, isNameChar c = false ∧ c ≠ '.'

theorem breaks_cons {c : Char} (cs : List Char) (hName : isNameChar c = false) (hDot : c ≠ '.') :
    Breaks (c :: cs) := by
  rintro c' ⟨⟩
  exact ⟨hName, hDot⟩

namespace Lexeme

theorem continues_symbol_iff {s : Symbol} {cs : List Char} :
    (symbol s).Continues cs ↔ s = .dot ∧ ∃ rest, cs = '.' :: '.' :: rest := by
  unfold Continues
  split <;> simp_all

theorem not_continues_append {l : Lexeme} {cs after : List Char} (h : ¬ l.Continues cs)
    (hBreak : Breaks after) : ¬ l.Continues (cs ++ after) := by
  have hHead {p : Char → Prop} (hFirst : ∀ c ∈ cs.head?, p c) (hAfter : ∀ c ∈ after.head?, p c) :
      ∀ c ∈ (cs ++ after).head?, p c := by
    cases cs with
    | nil => exact hAfter
    | cons c rest => exact hFirst
  cases l with
  | integer n =>
      rw [not_continues_integer_iff] at h ⊢
      refine hHead h fun c hMember => eq_false_of_ne_true fun hDigit => ?_
      exact Bool.false_ne_true ((hBreak c hMember).1.symm.trans (isNameChar_of_isDigit hDigit))
  | identifier name =>
      rw [not_continues_identifier_iff] at h ⊢
      exact hHead h fun c hMember => (hBreak c hMember).1
  | symbol s =>
      -- The two dots that continue a dot would be in `cs`, or one of them starts `after`.
      rw [continues_symbol_iff] at h ⊢
      rintro ⟨rfl, rest, hDots⟩
      have hAfter (others : List Char) : after ≠ '.' :: others := by
        rintro rfl
        exact (hBreak '.' rfl).2 rfl
      match cs, h, hDots with
      | [], _, hDots => exact hAfter _ hDots
      | [c], _, hDots => exact hAfter _ (List.cons.inj hDots).2
      | c :: c' :: cs, h, hDots =>
          obtain ⟨rfl, hRest⟩ := List.cons.inj hDots
          obtain ⟨rfl, -⟩ := List.cons.inj hRest
          exact h ⟨rfl, cs, rfl⟩

end Lexeme

namespace Spells

variable {cs cs' : List Char} {ls ls' : List Lexeme}

/-- What a text spells out is found in it wherever it stands. -/
theorem tokensFrom (h : Spells cs ls) (position : Nat) :
    ∃ ts, tokensFrom position cs = .ok ts ∧ ts.map (·.lexeme) = ls := by
  induction h generalizing position with
  | nil => exact ⟨[], by rw [TreeSchema.tokensFrom], rfl⟩
  | @blank c cs ls blank _ ih =>
      obtain ⟨ts, hScan, hLexemes⟩ := ih (position + c.utf8Size)
      exact ⟨ts, by rw [TreeSchema.tokensFrom, if_pos blank, hScan], hLexemes⟩
  | @cons l slice rest ls written stops _ ih =>
      obtain ⟨ts, hScan, hLexemes⟩ := ih (position + textSize slice)
      refine ⟨⟨l, .ofSize position (textSize slice)⟩ :: ts, ?_, ?_⟩
      · rw [tokensFrom_isWritten position rest written stops, hScan]
        rfl
      · rw [List.map_cons, hLexemes]

theorem append (h : Spells cs ls) (hBreak : Breaks cs') (hAfter : Spells cs' ls') :
    Spells (cs ++ cs') (ls ++ ls') := by
  induction h with
  | nil => exact hAfter
  | blank blank _ ih => exact .blank blank ih
  | cons written stops _ ih =>
      rw [List.append_assoc]
      exact .cons written (Lexeme.not_continues_append stops hBreak) ih

/-- A symbol that is continued by nothing, in front of a text. -/
theorem symbol {s : Symbol} (hDot : s ≠ .dot) (h : Spells cs ls) :
    Spells (s.text.toList ++ cs) (.symbol s :: ls) :=
  .cons rfl (fun hMore => hDot (Lexeme.continues_symbol_iff.mp hMore).1) h

/-- A text that spells out nothing is blank. -/
theorem blank_of_nil (h : Spells cs []) : ∀ c ∈ cs, Text.isBlank c = true := by
  generalize hNone : ([] : List Lexeme) = ls at h
  induction h with
  | nil => exact List.forall_mem_nil _
  | blank blank _ ih => exact List.forall_mem_cons.mpr ⟨blank, ih hNone⟩
  | cons => cases hNone

end Spells

end TreeSchema
