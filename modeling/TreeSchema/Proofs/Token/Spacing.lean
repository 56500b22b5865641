import TreeSchema.Proofs.Span
import TreeSchema.Proofs.Token.Joining

/-! Lexemes that are written with gaps of blanks between them. Whatever the blanks are, the
lexemes are read back, each with the bytes at which it was written. -/
namespace TreeSchema

/-- Lexemes one after the other, each with the gap that follows it. -/
def spacedText : List (Lexeme × String) → String
  | [] => ""
  | (l, gap) :: items => l.text ++ (gap ++ spacedText items)

/-- The tokens of lexemes that are written with gaps from byte `position` on. -/
def spacedTokens (position : Nat) : List (Lexeme × String) → List Token
  | [] => []
  | (l, gap) :: items =>
      ⟨l, .ofSize position l.text.utf8ByteSize⟩ ::
        spacedTokens (position + l.text.utf8ByteSize + gap.utf8ByteSize) items

/-- Whether a text consists of blanks. -/
def IsGap (gap : String) : Prop :=
  ∀ c ∈ gap.toList, Text.isBlank c = true

theorem textSize_toList (s : String) : textSize s.toList = s.utf8ByteSize := by
  rw [← utf8ByteSize_ofList, String.ofList_toList]

/-- Blanks in front of a text move its tokens. -/
theorem tokensFrom_blanks (position : Nat) {blanks : List Char} (rest : List Char)
    (h : ∀ c ∈ blanks, Text.isBlank c = true) :
    tokensFrom position (blanks ++ rest) = tokensFrom (position + textSize blanks) rest := by
  induction blanks generalizing position with
  | nil => rfl
  | cons c blanks ih =>
      rw [List.forall_mem_cons] at h
      rw [List.cons_append, tokensFrom, if_pos h.1, ih _ h.2, textSize_cons, Nat.add_assoc]

/-- No lexeme goes on with a blank. -/
theorem breaks_of_isBlank {c : Char} (cs : List Char) (h : Text.isBlank c = true) :
    Breaks (c :: cs) := by
  apply breaks_cons
  · refine eq_false_of_ne_true fun hName => ?_
    rw [isBlank_of_isNameChar hName] at h
    cases h
  · rintro rfl
    exact absurd h (by decide)

/-- Nothing goes on with a lexeme where a gap follows it, or nothing at all. -/
theorem Lexeme.not_continues_gap (l : Lexeme) {gap : String} {items : List (Lexeme × String)}
    (hGap : IsGap gap) (hApart : gap = "" → items = []) :
    ¬ l.Continues (gap.toList ++ (spacedText items).toList) := by
  have hNone : ¬ l.Continues [] := by
    cases l with
    | symbol s => simp [Lexeme.continues_symbol_iff]
    | integer n => exact id
    | identifier name => exact id
  have hBreak : Breaks (gap.toList ++ (spacedText items).toList) := by
    cases hText : gap.toList with
    | nil =>
        rw [hApart (String.toList_eq_nil_iff.mp hText)]
        rintro c ⟨⟩
    | cons c cs => exact breaks_of_isBlank _ (hGap c (hText ▸ List.mem_cons_self))
  have hStop := Lexeme.not_continues_append hNone hBreak
  rwa [List.nil_append] at hStop

theorem tokensFrom_spaced (position : Nat) {items : List (Lexeme × String)}
    (hFormed : ∀ item ∈ items, item.1.WellFormed) (hGaps : ∀ item ∈ items, IsGap item.2)
    (hApart : ∀ item ∈ items.dropLast, item.2 ≠ "") :
    tokensFrom position (spacedText items).toList = .ok (spacedTokens position items) := by
  induction items generalizing position with
  | nil => rw [spacedText, String.toList_empty, tokensFrom, spacedTokens]
  | cons item items ih =>
      obtain ⟨l, gap⟩ := item
      rw [List.forall_mem_cons] at hFormed hGaps
      -- only the last gap may be empty
      have hNext : gap = "" → items = [] := by
        intro hEmpty
        cases items with
        | nil => rfl
        | cons => exact absurd hEmpty (hApart (l, gap) List.mem_cons_self)
      have hOthers : ∀ item ∈ items.dropLast, item.2 ≠ "" := by
        cases items with
        | nil => exact List.forall_mem_nil _
        | cons => exact fun item hMember => hApart item (List.mem_cons_of_mem _ hMember)
      rw [spacedText, String.toList_append, String.toList_append,
        tokensFrom_isWritten position _ (l.isWritten_text hFormed.1)
          (l.not_continues_gap hGaps.1 hNext),
        tokensFrom_blanks _ _ hGaps.1, textSize_toList, textSize_toList,
        ih _ hFormed.2 hGaps.2 hOthers]
      rfl

@[simp] theorem map_lexeme_spacedTokens (position : Nat) (items : List (Lexeme × String)) :
    (spacedTokens position items).map (·.lexeme) = items.map (·.1) := by
  induction items generalizing position with
  | nil => rfl
  | cons item items ih => rw [spacedTokens, List.map_cons, List.map_cons, ih]

/-- Each token starts where the text before its lexeme ends. -/
theorem getElem?_spacedTokens (position : Nat) (earlier later : List (Lexeme × String))
    (l : Lexeme) (gap : String) :
    (spacedTokens position (earlier ++ (l, gap) :: later))[earlier.length]? =
      some ⟨l, .ofSize (position + (spacedText earlier).utf8ByteSize) l.text.utf8ByteSize⟩ := by
  induction earlier generalizing position with
  | nil => rfl
  | cons item earlier ih =>
      rw [List.cons_append, spacedTokens, List.length_cons, List.getElem?_cons_succ, ih,
        spacedText, String.utf8ByteSize_append, String.utf8ByteSize_append, ← Nat.add_assoc,
        ← Nat.add_assoc]

/-- Lexemes that are written with blanks before, between and after them are read back. Only
between two lexemes there has to be a blank. Each token has the bytes of the text of its
lexeme, right after all that is written before it. -/
theorem tokens_spaced {before : String} {items : List (Lexeme × String)}
    (hFormed : ∀ item ∈ items, item.1.WellFormed) (hBefore : IsGap before)
    (hGaps : ∀ item ∈ items, IsGap item.2) (hApart : ∀ item ∈ items.dropLast, item.2 ≠ "") :
    ∃ ts, tokens (before ++ spacedText items) = .ok ts ∧
      ts.map (·.lexeme) = items.map (·.1) ∧
      ∀ earlier l gap later, items = earlier ++ (l, gap) :: later →
        ts[earlier.length]? = some ⟨l, .ofSize (before ++ spacedText earlier).utf8ByteSize
          l.text.utf8ByteSize⟩ := by
  refine ⟨spacedTokens before.utf8ByteSize items, ?_, map_lexeme_spacedTokens _ items, ?_⟩
  · rw [tokens, String.toList_append, tokensFrom_blanks 0 _ hBefore, Nat.zero_add,
      textSize_toList, tokensFrom_spaced _ hFormed hGaps hApart]
  · rintro earlier l gap later rfl
    rw [getElem?_spacedTokens, String.utf8ByteSize_append]

/-- Blanks of several bytes, dots that would be read in another way without a gap, the largest
number, and a name that a digit follows. -/
theorem tokens_spaced_wide :
    let before := "\u3000"
    let items : List (Lexeme × String) := [(.symbol .dot, "\u2003"), (.symbol .dots, "\n\u0085"),
      (.integer 18446744073709551615, " "), (.identifier "_9", "")]
    (∀ item ∈ items, item.1.WellFormed) ∧ IsGap before ∧ (∀ item ∈ items, IsGap item.2) ∧
    (∀ item ∈ items.dropLast, item.2 ≠ "") ∧
    ∃ ts, tokens "\u3000.\u2003...\n\u008518446744073709551615 _9" = .ok ts ∧
      ts.map (·.lexeme) = items.map (·.1) ∧ ts[3]? = some ⟨.identifier "_9", ⟨34, 36⟩⟩ := by
  intro before items
  have hName : IsName "_9" := by decide
  have hGap (gap : String) (h : gap.toList.all Text.isBlank = true) : IsGap gap :=
    List.all_eq_true.mp h
  have hFormed : ∀ item ∈ items, item.1.WellFormed := by
    simp only [items, List.forall_mem_cons]
    exact ⟨trivial, trivial, trivial, hName, List.forall_mem_nil _⟩
  have hBefore : IsGap before := hGap _ (by decide)
  have hGaps : ∀ item ∈ items, IsGap item.2 := by
    simp only [items, List.forall_mem_cons]
    exact ⟨hGap _ (by decide), hGap _ (by decide), hGap _ (by decide), hGap _ (by decide),
      List.forall_mem_nil _⟩
  have hApart : ∀ item ∈ items.dropLast, item.2 ≠ "" := by decide
  obtain ⟨ts, hTokens, hLexemes, hPlaces⟩ := tokens_spaced hFormed hBefore hGaps hApart
  exact ⟨hFormed, hBefore, hGaps, hApart, ts, hTokens, hLexemes,
    hPlaces (items.take 3) (.identifier "_9") "" [] rfl⟩

end TreeSchema
