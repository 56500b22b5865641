import TreeSchema.Proofs.Token.Spelling

/-! What scanning finds in a text. If it succeeds, the tokens tile the text: each spells
out a slice of it, as long as the text lets it, and between them are only blanks. There
is at most one such tiling. Otherwise the error stands at the first place where no token
can be cut, and all before that place is tiled. -/
namespace TreeSchema

namespace Token

/-- Whether a token spells out its slice of a text that starts at byte `position`, and
what follows the slice does not continue it. -/
def SpelledIn (position : Nat) (cs : List Char) (t : Token) : Prop :=
  ∃ before slice after, cs = before ++ (slice ++ after) ∧
    t.span = .ofSize (position + textSize before) (textSize slice) ∧
    t.lexeme.IsWritten slice ∧ ¬ t.lexeme.Continues after

/-- Whether the byte at `place` belongs to a token. -/
def Covers (t : Token) (place : Nat) : Prop :=
  t.span.start ≤ place ∧ place < t.span.stop

end Token

/-- The tokens `ts` are what there is in the text `cs`, which starts at byte `position`. -/
structure Tiling (position : Nat) (cs : List Char) (ts : List Token) : Prop where
  /-- The tokens stand one after the other and do not overlap. -/
  ordered : ts.Pairwise fun t u => t.span.stop ≤ u.span.start
  nonempty : ∀ t ∈ ts, t.span.start < t.span.stop
  spelled : ∀ t ∈ ts, t.SpelledIn position cs
  /-- All that belongs to no token is blank. -/
  blank : ∀ before c after, cs = before ++ c :: after →
    (∀ t ∈ ts, ¬ t.Covers (position + textSize before)) → Text.isBlank c = true

namespace Token.SpelledIn

variable {position : Nat} {cs : List Char} {t : Token}

theorem start_ge (h : t.SpelledIn position cs) : position ≤ t.span.start := by
  obtain ⟨before, slice, after, -, hSpan, -⟩ := h
  rw [hSpan]
  exact Nat.le_add_right _ _

theorem start_lt_stop (h : t.SpelledIn position cs) : t.span.start < t.span.stop := by
  obtain ⟨before, slice, after, -, hSpan, hWritten, -⟩ := h
  obtain ⟨c, rest, rfl, -⟩ := hWritten.eq_cons
  have := c.utf8Size_pos
  rw [hSpan]
  simp [Span.ofSize]
  omega

/-- Something more in front of a text moves its tokens. -/
theorem append (first : List Char) (h : t.SpelledIn (position + textSize first) cs) :
    t.SpelledIn position (first ++ cs) := by
  obtain ⟨before, slice, after, rfl, hSpan, hSpelled⟩ := h
  refine ⟨first ++ before, slice, after, by simp, ?_, hSpelled⟩
  rw [hSpan, textSize_append, Nat.add_assoc]

/-- A token that starts after the front of a text is a token of the rest. -/
theorem drop (first : List Char) (h : t.SpelledIn position (first ++ cs))
    (hStart : position + textSize first ≤ t.span.start) :
    t.SpelledIn (position + textSize first) cs := by
  obtain ⟨before, slice, after, hText, hSpan, hSpelled⟩ := h
  rw [hSpan] at hStart
  have hSize : textSize first ≤ textSize before := by
    simpa [Span.ofSize] using hStart
  obtain ⟨between, rfl, rfl⟩ := exists_append_of_textSize_le hText hSize
  refine ⟨between, slice, after, rfl, ?_, hSpelled⟩
  rw [hSpan, textSize_append, Nat.add_assoc]

/-- A blank is in front of all tokens after it. -/
theorem start_ge_of_blank {c : Char} (h : t.SpelledIn position (c :: cs))
    (hBlank : Text.isBlank c = true) : position + textSize [c] ≤ t.span.start := by
  obtain ⟨before, slice, after, hText, hSpan, hWritten, -⟩ := h
  cases before with
  | nil =>
      obtain ⟨c', rest, rfl, hShown⟩ := hWritten.eq_cons
      obtain ⟨rfl, -⟩ := List.cons.inj hText
      rw [hBlank] at hShown
      cases hShown
  | cons c' before =>
      obtain ⟨rfl, -⟩ := List.cons.inj hText
      rw [hSpan]
      simp [Span.ofSize]

end Token.SpelledIn

namespace Tiling

variable {position : Nat} {cs : List Char} {ts : List Token}

theorem nil_iff : Tiling position [] ts ↔ ts = [] := by
  constructor
  · intro h
    rw [List.eq_nil_iff_forall_not_mem]
    intro t hMember
    obtain ⟨before, slice, after, hText, -, hWritten, -⟩ := h.spelled t hMember
    obtain ⟨c, rest, rfl, -⟩ := hWritten.eq_cons
    simp at hText
  · rintro rfl
    constructor <;> simp

/-- A blank in front of a text moves its tiling. -/
theorem blank_iff {c : Char} (hBlank : Text.isBlank c = true) :
    Tiling position (c :: cs) ts ↔ Tiling (position + textSize [c]) cs ts := by
  constructor
  · intro h
    refine ⟨h.ordered, h.nonempty, fun t hMember => ?_, fun before c' after hText hFree => ?_⟩
    · have hSpelled := h.spelled t hMember
      exact hSpelled.drop [c] (hSpelled.start_ge_of_blank hBlank)
    · apply h.blank (c :: before) c' after (by rw [hText, List.cons_append])
      simpa [Nat.add_assoc] using hFree
  · intro h
    refine ⟨h.ordered, h.nonempty, fun t hMember => ?_, fun before c' after hText hFree => ?_⟩
    · exact (h.spelled t hMember).append [c]
    · cases before with
      | nil =>
          obtain ⟨rfl, -⟩ := List.cons.inj hText
          exact hBlank
      | cons c'' before =>
          obtain ⟨rfl, hRest⟩ := List.cons.inj hText
          apply h.blank before c' after hRest
          simpa [Nat.add_assoc] using hFree

/-- A lexeme that is written in front of a text goes before its tiling. -/
theorem cons {l : Lexeme} {slice : List Char} (hWritten : l.IsWritten slice)
    (hStop : ¬ l.Continues cs) (h : Tiling (position + textSize slice) cs ts) :
    Tiling position (slice ++ cs) (⟨l, .ofSize position (textSize slice)⟩ :: ts) := by
  have hFirst : Token.SpelledIn position (slice ++ cs)
      ⟨l, .ofSize position (textSize slice)⟩ :=
    ⟨[], slice, cs, rfl, by simp, hWritten, hStop⟩
  refine ⟨?_, ?_, ?_, fun before c after hText hFree => ?_⟩
  · exact List.pairwise_cons.mpr ⟨fun t hMember => (h.spelled t hMember).start_ge, h.ordered⟩
  · exact List.forall_mem_cons.mpr ⟨hFirst.start_lt_stop, h.nonempty⟩
  · exact List.forall_mem_cons.mpr ⟨hFirst, fun t hMember => (h.spelled t hMember).append slice⟩
  · rw [List.forall_mem_cons] at hFree
    have hSize : textSize slice ≤ textSize before := by
      have hOutside := hFree.1
      simp [Token.Covers, Span.ofSize] at hOutside
      exact hOutside
    obtain ⟨between, rfl, hRest⟩ := exists_append_of_textSize_le hText hSize
    apply h.blank between c after hRest
    simpa [Nat.add_assoc] using hFree.2

/-- Without the slice of its first token, a text is tiled by the other tokens. -/
theorem tail {t : Token} {slice : List Char} (hSpan : t.span = .ofSize position (textSize slice))
    (h : Tiling position (slice ++ cs) (t :: ts)) :
    Tiling (position + textSize slice) cs ts := by
  obtain ⟨hBefore, hOrdered⟩ := List.pairwise_cons.mp h.ordered
  have hStop : t.span.stop = position + textSize slice := by
    rw [hSpan]
    rfl
  refine ⟨hOrdered, fun u hMember => h.nonempty u (List.mem_cons_of_mem _ hMember),
    fun u hMember => ?_, fun between c after hText hFree => ?_⟩
  · have hSpelled := h.spelled u (List.mem_cons_of_mem _ hMember)
    exact hSpelled.drop slice (hStop ▸ hBefore u hMember)
  · apply h.blank (slice ++ between) c after (by rw [hText, List.append_assoc])
    rw [textSize_append, ← Nat.add_assoc]
    refine List.forall_mem_cons.mpr ⟨fun hCovers => ?_, hFree⟩
    have := hCovers.2
    omega

/-- A character that is not blank belongs to the first token. -/
theorem exists_first {c : Char} (hBlank : Text.isBlank c = false)
    (h : Tiling position (c :: cs) ts) :
    ∃ t others, ts = t :: others ∧ t.span.start ≤ position := by
  have hCovered : ∃ t ∈ ts, t.Covers position := by
    apply Classical.byContradiction
    intro hNone
    have hFree := h.blank [] c cs rfl fun t hMember hCovers => hNone ⟨t, hMember, hCovers⟩
    rw [hBlank] at hFree
    cases hFree
  obtain ⟨t, hMember, hStart, -⟩ := hCovered
  cases ts with
  | nil => cases hMember
  | cons first others =>
      refine ⟨first, others, rfl, ?_⟩
      rcases List.mem_cons.mp hMember with rfl | hOther
      · exact hStart
      · have := h.nonempty first List.mem_cons_self
        have := (List.pairwise_cons.mp h.ordered).1 t hOther
        omega

/-- A text that starts with no blank starts with the slice of a token. -/
theorem exists_cons {c : Char} (hBlank : Text.isBlank c = false)
    (h : Tiling position (c :: cs) ts) :
    ∃ l slice after ts', c :: cs = slice ++ after ∧ l.IsWritten slice ∧ ¬ l.Continues after ∧
      ts = ⟨l, .ofSize position (textSize slice)⟩ :: ts' ∧
      Tiling (position + textSize slice) after ts' := by
  obtain ⟨t, others, rfl, hStart⟩ := h.exists_first hBlank
  obtain ⟨before, slice, after, hText, hSpan, hWritten, hStop⟩ := h.spelled t List.mem_cons_self
  have hNone : before = [] := by
    rw [hSpan] at hStart
    change position + textSize before ≤ position at hStart
    exact textSize_eq_zero_iff.mp (by omega)
  subst hNone
  rw [textSize_nil, Nat.add_zero] at hSpan
  rw [List.nil_append] at hText
  rw [hText] at h
  exact ⟨t.lexeme, slice, after, others, hText, hWritten, hStop, by rw [← hSpan], h.tail hSpan⟩

end Tiling

/-- The character that a symbol starts with starts a symbol in every text. -/
theorem Symbol.first?_ne_none {s : Symbol} {c : Char} {others : List Char} (cs : List Char)
    (h : s.text.toList = c :: others) : Symbol.first? (c :: cs) ≠ none := by
  have hStart : c ∈ ['.', '<', '>', '[', ']', '(', ')', '|', ',', ':'] := by
    cases s <;> cases h <;> decide
  unfold Symbol.first?
  split
  case h_12 => simp_all
  all_goals exact Option.some_ne_none _

namespace Lexeme

theorem continues_append {l : Lexeme} {cs : List Char} (more : List Char)
    (h : l.Continues cs) : l.Continues (cs ++ more) := by
  unfold Continues at h
  split at h
  case h_4 => cases h
  all_goals exact h

/-- A lexeme is cut from a text if and only if the text starts with it and does not
continue it. -/
theorem first_eq_ok_iff {cs : List Char} {cut : Cut} :
    first cs = .ok cut ↔ ∃ slice, cs = slice ++ cut.rest ∧ cut.size = textSize slice ∧
      cut.lexeme.IsWritten slice ∧ ¬ cut.lexeme.Continues cut.rest := by
  constructor
  · intro h
    obtain ⟨slice, hText, hWritten, hStop⟩ := isWritten_of_first h
    rw [hText, first_of_isWritten cut.rest hWritten hStop] at h
    exact ⟨slice, hText, congrArg Cut.size (Except.ok.inj h).symm, hWritten, hStop⟩
  · rintro ⟨slice, hText, hSize, hWritten, hStop⟩
    rw [hText, first_of_isWritten cut.rest hWritten hStop, ← hSize]

/-- The note on a number that is too large. -/
def tooLarge (digits : List Char) : String :=
  s!"integer literal '{String.ofList digits}' does not fit in 64 bits"

/-- A character that no lexeme can be written with at its start. -/
theorem not_isWritten_cons {c : Char} {cs : List Char} (hSymbol : Symbol.first? (c :: cs) = none)
    (hDigit : c.isDigit = false) (hName : isNameChar c = false) (l : Lexeme)
    (others : List Char) : ¬ l.IsWritten (c :: others) := by
  intro hWritten
  cases l with
  | symbol s => exact Symbol.first?_ne_none cs hWritten.symm hSymbol
  | integer n =>
      rw [hWritten.2.1 c List.mem_cons_self] at hDigit
      cases hDigit
  | identifier name =>
      rw [hWritten.2.chars c (hWritten.1 ▸ List.mem_cons_self)] at hName
      cases hName

/-- Where no lexeme is cut, none can start, or a number is too large. -/
theorem first_eq_error {c : Char} {cs : List Char} {notes : List String}
    (h : first (c :: cs) = .error notes) :
    ((∀ (l : Lexeme) (others : List Char), ¬ l.IsWritten (c :: others)) ∧ notes = []) ∨
      (c.isDigit = true ∧
        UInt64.size ≤ Nat.ofDigitChars 10 ((c :: cs).takeWhile Char.isDigit) 0 ∧
        notes = [tooLarge ((c :: cs).takeWhile Char.isDigit)]) := by
  have hHead {p : Char → Bool} : (c :: cs).takeWhile p = [] ↔ p c = false := by
    cases hChar : p c <;> simp [hChar]
  unfold first at h
  split at h
  · cases h
  · next hSymbol =>
      split at h
      · next d ds hDigits =>
          dsimp only at h
          split at h
          · cases h
          · next hFits =>
              cases h
              have hDigit : c.isDigit = true := by
                rw [← Bool.not_eq_false, ← hHead, hDigits]
                exact List.cons_ne_nil _ _
              rw [hDigits]
              exact .inr ⟨hDigit, Nat.le_of_not_lt hFits, rfl⟩
      · next hDigits =>
          split at h
          · cases h
          · next hName =>
              cases h
              exact .inl ⟨not_isWritten_cons hSymbol (hHead.mp hDigits) (hHead.mp hName), rfl⟩

end Lexeme

/-- Scanning returns the tiling of a text, and nothing if there is none. -/
theorem tokensFrom_eq_ok_iff (position : Nat) (cs : List Char) (ts : List Token) :
    tokensFrom position cs = .ok ts ↔ Tiling position cs ts := by
  fun_induction tokensFrom position cs generalizing ts with
  | case1 position =>
      rw [Tiling.nil_iff, Except.ok.injEq]
      exact eq_comm
  | case2 position c cs hBlank ih => exact (ih ts).trans (Tiling.blank_iff hBlank).symm
  | case3 position c cs hBlank notes hError =>
      constructor
      · intro h
        cases h
      · intro h
        obtain ⟨l, slice, after, others, hText, hWritten, hStop, -⟩ :=
          h.exists_cons (Bool.eq_false_iff.mpr hBlank)
        rw [hText, Lexeme.first_of_isWritten after hWritten hStop] at hError
        cases hError
  | case4 position c cs hBlank cut hCut _ token ih =>
      constructor
      · intro h
        obtain ⟨slice, hText, hSize, hWritten, hStop⟩ := Lexeme.first_eq_ok_iff.mp hCut
        obtain ⟨others, hRest, rfl⟩ := map_eq_ok_iff.mp h
        have hOthers := (ih others).mp hRest
        rw [hSize] at hOthers
        simp only [hText, token, hSize]
        exact Tiling.cons hWritten hStop hOthers
      · intro h
        obtain ⟨l, slice, after, others, hText, hWritten, hStop, rfl, hOthers⟩ :=
          h.exists_cons (Bool.eq_false_iff.mpr hBlank)
        rw [hText, Lexeme.first_of_isWritten after hWritten hStop] at hCut
        cases hCut
        rw [(ih others).mpr hOthers]
        rfl

/-- The first place at which no token can be cut, after byte `position`. -/
theorem exists_tiling_of_tokensFrom_error {position : Nat} {cs : List Char} {e : SyntaxError}
    (h : tokensFrom position cs = .error e) :
    ∃ before found after ts notes, cs = before ++ found :: after ∧
      e = { SyntaxError.ofChar found (position + textSize before) with notes } ∧
      Tiling position before ts ∧ (∀ t ∈ ts, t.SpelledIn position cs) ∧
      Text.isBlank found = false ∧ Lexeme.first (found :: after) = .error notes := by
  fun_induction tokensFrom position cs with
  | case1 => cases h
  | case2 position c cs hBlank ih =>
      obtain ⟨before, found, after, ts, notes, rfl, rfl, hTiling, hSpelled, hStop⟩ := ih h
      refine ⟨c :: before, found, after, ts, notes, rfl, ?_, (Tiling.blank_iff hBlank).mpr hTiling,
        fun t hMember => (hSpelled t hMember).append [c], hStop⟩
      rw [textSize_cons, Nat.add_assoc]
  | case3 position c cs hBlank notes hError =>
      cases h
      exact ⟨[], c, cs, [], notes, rfl, rfl, Tiling.nil_iff.mpr rfl, List.forall_mem_nil _,
        Bool.eq_false_iff.mpr hBlank, hError⟩
  | case4 position c cs hBlank cut hCut _ token ih =>
      obtain ⟨slice, hText, hSize, hWritten, hStop⟩ := Lexeme.first_eq_ok_iff.mp hCut
      obtain ⟨before, found, after, ts, notes, hBefore, rfl, hTiling, hSpelled, hFound⟩ :=
        ih (map_eq_error_iff.mp h)
      rw [hSize] at hTiling hSpelled
      have hStopBefore : ¬ cut.lexeme.Continues before := by
        rw [hBefore] at hStop
        exact fun hMore => hStop (Lexeme.continues_append _ hMore)
      have hFirst : token.SpelledIn position (c :: cs) :=
        ⟨[], slice, cut.rest, hText, by simp [token, hSize], hWritten, hStop⟩
      refine ⟨slice ++ before, found, after, token :: ts, notes, ?_, ?_, ?_, ?_, hFound⟩
      · rw [hText, hBefore, List.append_assoc]
      · rw [hSize, textSize_append, Nat.add_assoc]
      · simp only [token, hSize]
        exact Tiling.cons hWritten hStopBefore hTiling
      · rw [hText] at hFirst ⊢
        exact List.forall_mem_cons.mpr
          ⟨hFirst, fun t hMember => (hSpelled t hMember).append slice⟩

/-- Scanning a text returns its tiling, which is thus unique, or the leftmost error. In
that case the text before the error is tiled by tokens that are also spelled out in the
whole text, and at the error stands a character that starts no token, or a number that
does not fit in 64 bits. Only on such a number there is a note. -/
theorem tokens_tile_or_stop (text : String) :
    (∀ ts, tokens text = .ok ts ↔ Tiling 0 text.toList ts) ∧
    ((∃ ts, Tiling 0 text.toList ts) ∨
      ∃ before found after ts notes, text.toList = before ++ found :: after ∧
        tokens text = .error
          { cause := .stray found, span := .ofSize (textSize before) found.utf8Size, notes } ∧
        tokens (String.ofList before) = .ok ts ∧ (∀ t ∈ ts, t.SpelledIn 0 text.toList) ∧
        Text.isBlank found = false ∧
        (((∀ (l : Lexeme) (others : List Char), ¬ l.IsWritten (found :: others)) ∧ notes = []) ∨
          (found.isDigit = true ∧
            UInt64.size ≤ Nat.ofDigitChars 10 ((found :: after).takeWhile Char.isDigit) 0 ∧
            notes = [Lexeme.tooLarge ((found :: after).takeWhile Char.isDigit)]))) := by
  refine ⟨fun ts => tokensFrom_eq_ok_iff 0 text.toList ts, ?_⟩
  cases hScan : tokens text with
  | ok ts => exact .inl ⟨ts, (tokensFrom_eq_ok_iff 0 text.toList ts).mp hScan⟩
  | error e =>
      obtain ⟨before, found, after, ts, notes, hText, rfl, hTiling, hSpelled, hBlank, hStop⟩ :=
        exists_tiling_of_tokensFrom_error hScan
      have hBefore : tokens (String.ofList before) = .ok ts := by
        rw [tokens, String.toList_ofList]
        exact (tokensFrom_eq_ok_iff 0 before ts).mpr hTiling
      refine .inr ⟨before, found, after, ts, notes, hText, ?_, hBefore, hSpelled, hBlank,
        Lexeme.first_eq_error hStop⟩
      rw [Nat.zero_add]
      rfl

end TreeSchema
