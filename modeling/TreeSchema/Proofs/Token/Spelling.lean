import TreeSchema.Proofs.Except
import TreeSchema.Token.Scan

/-! Scanning texts that are written from lexemes. A lexeme is cut from the front of
a text as long as what follows does not continue it; so lexemes that are kept apart
are read back, each at the place where it was written. What is cut was written so. -/
namespace TreeSchema

/-- The names that the scanner reads as identifiers. -/
structure IsName (name : String) : Prop where
  nonempty : name.toList ≠ []
  chars : ∀ c ∈ name.toList, isNameChar c = true
  start : ∀ c ∈ name.toList.head?, c.isDigit = false

instance (name : String) : Decidable (IsName name) :=
  decidable_of_iff (name.toList ≠ [] ∧ name.toList.all isNameChar = true ∧
    name.toList.head?.all (fun c => !c.isDigit) = true) <| by
    rw [List.all_eq_true, Option.all_eq_true]
    simp only [Bool.not_eq_true']
    exact ⟨fun h => ⟨h.1, h.2.1, h.2.2⟩, fun h => ⟨h.nonempty, h.chars, h.start⟩⟩

theorem isNameChar_of_isDigit {c : Char} (h : c.isDigit = true) : isNameChar c = true := by
  simp [isNameChar, Char.isAlphanum, h]

theorem isDigit_of_mem_repr {n : Nat} {c : Char} (h : c ∈ n.repr.toList) : c.isDigit = true := by
  rw [Nat.toList_repr] at h
  exact Nat.isDigit_of_mem_toDigits (by decide) (by decide) h

/-- All name characters are printed ASCII characters. -/
theorem isNameChar_bounds {c : Char} (h : isNameChar c = true) :
    0x30 ≤ c.toNat ∧ c.toNat ≤ 0x7A := by
  delta isNameChar Char.isAlphanum Char.isAlpha Char.isUpper Char.isLower Char.isDigit at h
  simp only [Bool.or_eq_true, Bool.and_eq_true, decide_eq_true_eq, beq_iff_eq, ge_iff_le,
    UInt32.le_iff_toNat_le] at h
  rcases h with ((⟨hLow, hHigh⟩ | ⟨hLow, hHigh⟩) | ⟨hLow, hHigh⟩) | rfl
  · exact ⟨Nat.le_trans (by decide) hLow, Nat.le_trans hHigh (by decide)⟩
  · exact ⟨Nat.le_trans (by decide) hLow, Nat.le_trans hHigh (by decide)⟩
  · exact ⟨Nat.le_trans (by decide) hLow, Nat.le_trans hHigh (by decide)⟩
  · decide

theorem isBlank_of_isNameChar {c : Char} (h : isNameChar c = true) : Text.isBlank c = false := by
  have hBounds := isNameChar_bounds h
  simp only [Text.isBlank, Text.blankRanges, List.any_cons, List.any_nil, Bool.or_eq_false_iff,
    Bool.and_eq_false_iff, decide_eq_false_iff_not, and_true]
  omega

theorem textSize_of_isNameChar {cs : List Char} (h : ∀ c ∈ cs, isNameChar c = true) :
    textSize cs = cs.length := by
  induction cs with
  | nil => rfl
  | cons c cs ih =>
      rw [List.forall_mem_cons] at h
      have hBounds := isNameChar_bounds h.1
      have hSize : c.utf8Size = 1 := Char.utf8Size_eq_one_iff.mpr (by
        rw [UInt32.le_iff_toNat_le]
        exact Nat.le_trans hBounds.2 (by decide))
      rw [textSize_cons, hSize, ih h.2, List.length_cons, Nat.add_comm]

/-- No symbol starts with a name character. -/
theorem Symbol.first?_eq_none {c : Char} (cs : List Char) (h : isNameChar c = true) :
    Symbol.first? (c :: cs) = none := by
  unfold Symbol.first?
  split
  case h_12 => rfl
  all_goals
    next hText =>
      obtain ⟨rfl, -⟩ := List.cons.inj hText
      exact absurd h (by decide)

namespace Lexeme

/-- Whether a lexeme is what its text is read as. -/
def WellFormed : Lexeme → Prop
  | identifier name => IsName name
  | _ => True

/-- The characters that a lexeme may be written with. Only a number leaves a choice: it
may have leading zeros. -/
def IsWritten : Lexeme → List Char → Prop
  | symbol s, cs => cs = s.text.toList
  | integer n, cs => cs ≠ [] ∧ (∀ c ∈ cs, c.isDigit = true) ∧ Nat.ofDigitChars 10 cs 0 = n.toNat
  | identifier name, cs => cs = name.toList ∧ IsName name

/-- Whether a text would be read as part of the lexeme right before it. -/
def Continues : Lexeme → List Char → Prop
  | symbol .dot, '.' :: '.' :: _ => True
  | integer _, c :: _ => c.isDigit = true
  | identifier _, c :: _ => isNameChar c = true
  | _, _ => False

end Lexeme

/-- A run of characters ends where the text after it does not go on with them. -/
theorem takeWhile_run {p : Char → Bool} {run rest : List Char} (hRun : ∀ c ∈ run, p c = true)
    (hStop : ∀ c ∈ rest.head?, p c = false) :
    (run ++ rest).takeWhile p = run ∧ (run ++ rest).dropWhile p = rest := by
  induction run with
  | nil =>
      cases rest with
      | nil => exact ⟨rfl, rfl⟩
      | cons c rest =>
          have hNone := hStop c rfl
          simp [hNone]
  | cons c run ih =>
      rw [List.forall_mem_cons] at hRun
      obtain ⟨hTake, hDrop⟩ := ih hRun.2
      simp [hRun.1, hTake, hDrop]

/-- The run at the start of a text and what is left of the text. -/
theorem run_of_takeWhile {p : Char → Bool} {cs run : List Char} (h : cs.takeWhile p = run) :
    cs = run ++ cs.dropWhile p ∧ (∀ c ∈ run, p c = true) ∧
      ∀ c ∈ (cs.dropWhile p).head?, p c = false := by
  subst h
  refine ⟨List.takeWhile_append_dropWhile.symm,
    fun c hMember => List.all_eq_true.mp List.all_takeWhile c hMember, fun c hHead => ?_⟩
  have hStop := List.head?_dropWhile_not p cs
  rw [hHead] at hStop
  simpa using hStop

namespace Lexeme

theorem not_continues_integer_iff (n : UInt64) (rest : List Char) :
    ¬ (integer n).Continues rest ↔ ∀ c ∈ rest.head?, c.isDigit = false := by
  cases rest <;> simp [Continues]

theorem not_continues_identifier_iff (name : String) (rest : List Char) :
    ¬ (identifier name).Continues rest ↔ ∀ c ∈ rest.head?, isNameChar c = false := by
  cases rest <;> simp [Continues]

/-- A lexeme starts with a character that is not blank. -/
theorem IsWritten.eq_cons {l : Lexeme} {cs : List Char} (h : l.IsWritten cs) :
    ∃ c rest, cs = c :: rest ∧ Text.isBlank c = false := by
  cases l with
  | symbol s =>
      rw [IsWritten] at h
      subst h
      cases s <;> exact ⟨_, _, rfl, by decide⟩
  | integer n =>
      obtain ⟨hNonempty, hDigits, -⟩ := h
      obtain ⟨c, rest, rfl⟩ := List.exists_cons_of_ne_nil hNonempty
      have hDigit := hDigits c List.mem_cons_self
      exact ⟨c, rest, rfl, isBlank_of_isNameChar (isNameChar_of_isDigit hDigit)⟩
  | identifier name =>
      obtain ⟨rfl, hName⟩ := h
      obtain ⟨c, rest, hText⟩ := List.exists_cons_of_ne_nil hName.nonempty
      have hChar := hName.chars c (hText ▸ List.mem_cons_self)
      exact ⟨c, rest, hText, isBlank_of_isNameChar hChar⟩

/-- Lexemes are written with characters of one byte. -/
theorem IsWritten.textSize_eq {l : Lexeme} {cs : List Char} (h : l.IsWritten cs) :
    textSize cs = cs.length := by
  cases l with
  | symbol s =>
      rw [IsWritten] at h
      subst h
      cases s <;> decide
  | integer n =>
      obtain ⟨-, hDigits, -⟩ := h
      exact textSize_of_isNameChar fun c hMember => isNameChar_of_isDigit (hDigits c hMember)
  | identifier name =>
      obtain ⟨rfl, hName⟩ := h
      exact textSize_of_isNameChar hName.chars

theorem first_symbol (s : Symbol) (rest : List Char) (hStop : ¬ (symbol s).Continues rest) :
    first (s.text.toList ++ rest) = .ok ⟨symbol s, s.text.toList.length, rest⟩ := by
  have hFirst : Symbol.first? (s.text.toList ++ rest) = some (s, rest) := by
    cases s with
    | dot =>
        change Symbol.first? ('.' :: rest) = _
        unfold Symbol.first?
        split <;> simp_all [Continues]
    | _ => rfl
  have hSize : s.text.utf8ByteSize = s.text.toList.length := by cases s <;> decide
  unfold first
  rw [hFirst]
  simp only [hSize]

theorem first_integer {cs : List Char} {n : UInt64} (rest : List Char)
    (h : (integer n).IsWritten cs) (hStop : ¬ (integer n).Continues rest) :
    first (cs ++ rest) = .ok ⟨integer n, cs.length, rest⟩ := by
  obtain ⟨hNonempty, hDigits, hValue⟩ := h
  obtain ⟨hTake, hDrop⟩ := takeWhile_run hDigits ((not_continues_integer_iff n rest).mp hStop)
  obtain ⟨c, cs, rfl⟩ := List.exists_cons_of_ne_nil hNonempty
  have hName := isNameChar_of_isDigit (hDigits c List.mem_cons_self)
  unfold first
  rw [List.cons_append, Symbol.first?_eq_none _ hName]
  rw [List.cons_append] at hTake hDrop
  simp only [hTake, hDrop, hValue, n.toNat_lt_size, dif_pos, UInt64.ofNatLT_toNat]

theorem first_identifier (name : String) (rest : List Char) (h : IsName name)
    (hStop : ¬ (identifier name).Continues rest) :
    first (name.toList ++ rest) = .ok ⟨identifier name, name.toList.length, rest⟩ := by
  obtain ⟨hTake, hDrop⟩ :=
    takeWhile_run h.chars ((not_continues_identifier_iff name rest).mp hStop)
  cases hCase : name.toList with
  | nil => exact absurd hCase h.nonempty
  | cons c cs =>
      have hName := h.chars c (by rw [hCase]; exact List.mem_cons_self)
      have hDigit := h.start c (by rw [hCase]; rfl)
      have hBack : String.ofList (c :: cs) = name := by rw [← hCase, String.ofList_toList]
      rw [hCase, List.cons_append] at hTake hDrop
      unfold first
      rw [List.cons_append, Symbol.first?_eq_none _ hName]
      simp only [List.takeWhile_cons, hDigit, Bool.false_eq_true, if_false]
      rw [← List.takeWhile_cons]
      simp only [hTake, hDrop, hBack]

/-- A lexeme is cut from a text in front of which it is written. -/
theorem first_of_isWritten {l : Lexeme} {cs : List Char} (rest : List Char)
    (h : l.IsWritten cs) (hStop : ¬ l.Continues rest) :
    first (cs ++ rest) = .ok ⟨l, textSize cs, rest⟩ := by
  rw [h.textSize_eq]
  cases l with
  | symbol s =>
      rw [IsWritten] at h
      subst h
      exact first_symbol s rest hStop
  | integer n => exact first_integer rest h hStop
  | identifier name =>
      obtain ⟨rfl, hName⟩ := h
      exact first_identifier name rest hName hStop

/-- A lexeme may be written with its text. -/
theorem isWritten_text (l : Lexeme) (h : l.WellFormed) : l.IsWritten l.text.toList := by
  cases l with
  | symbol s => rfl
  | integer n =>
      have hText : (integer n).text.toList = Nat.toDigits 10 n.toNat := Nat.toList_repr
      rw [IsWritten, hText]
      refine ⟨Nat.toDigits_ne_nil, fun c hMember => ?_, Nat.ofDigitChars_ten_toDigits⟩
      exact Nat.isDigit_of_mem_toDigits (by decide) (by decide) hMember
  | identifier name => exact ⟨rfl, h⟩

theorem integer_eq_cons (n : UInt64) :
    ∃ c cs, (integer n).text.toList = c :: cs ∧ isNameChar c = true := by
  obtain ⟨hNonempty, hDigits, -⟩ := isWritten_text (integer n) trivial
  obtain ⟨c, cs, hText⟩ := List.exists_cons_of_ne_nil hNonempty
  exact ⟨c, cs, hText, isNameChar_of_isDigit (hDigits c (hText ▸ List.mem_cons_self))⟩

theorem identifier_eq_cons {name : String} (h : IsName name) :
    ∃ c cs, name.toList = c :: cs ∧ isNameChar c = true := by
  obtain ⟨c, cs, hText⟩ := List.exists_cons_of_ne_nil h.nonempty
  exact ⟨c, cs, hText, h.chars c (hText ▸ List.mem_cons_self)⟩

end Lexeme

/-- Lexemes written one after the other, with nothing between them. -/
def written (ls : List Lexeme) : List Char :=
  ls.flatMap (·.text.toList)

@[simp] theorem written_nil : written [] = [] := rfl

@[simp] theorem written_cons (l : Lexeme) (ls : List Lexeme) :
    written (l :: ls) = l.text.toList ++ written ls := rfl

@[simp] theorem written_append (ls ls' : List Lexeme) :
    written (ls ++ ls') = written ls ++ written ls' := List.flatMap_append

/-- The tokens of lexemes that are written from byte `position` on. -/
def placed (position : Nat) : List Lexeme → List Token
  | [] => []
  | l :: ls => ⟨l, .ofSize position l.text.length⟩ :: placed (position + l.text.length) ls

@[simp] theorem map_lexeme_placed (position : Nat) (ls : List Lexeme) :
    (placed position ls).map (·.lexeme) = ls := by
  induction ls generalizing position with
  | nil => rfl
  | cons l ls ih => rw [placed, List.map_cons, ih]

/-- Lexemes that can be written without blanks: none is continued by those after it. -/
def Separated : List Lexeme → Prop
  | [] => True
  | l :: ls => l.WellFormed ∧ ¬ l.Continues (written ls) ∧ Separated ls

/-- A lexeme that is written in front of a text is read first. -/
theorem tokensFrom_isWritten (position : Nat) {l : Lexeme} {cs : List Char} (rest : List Char)
    (h : l.IsWritten cs) (hStop : ¬ l.Continues rest) :
    tokensFrom position (cs ++ rest) =
      (tokensFrom (position + textSize cs) rest).map
        (⟨l, .ofSize position (textSize cs)⟩ :: ·) := by
  have hFirst := Lexeme.first_of_isWritten rest h hStop
  obtain ⟨c, others, rfl, hBlank⟩ := h.eq_cons
  rw [List.cons_append] at hFirst ⊢
  rw [tokensFrom, hBlank]
  simp only [Bool.false_eq_true, if_false]
  split
  · next hError =>
      rw [hFirst] at hError
      cases hError
  · next cut hCut =>
      rw [hFirst] at hCut
      cases hCut
      rfl

theorem tokensFrom_text (position : Nat) (l : Lexeme) (rest : List Char) (h : l.WellFormed)
    (hStop : ¬ l.Continues rest) :
    tokensFrom position (l.text.toList ++ rest) =
      (tokensFrom (position + l.text.length) rest).map
        (⟨l, .ofSize position l.text.length⟩ :: ·) := by
  have hWritten := l.isWritten_text h
  rw [tokensFrom_isWritten position rest hWritten hStop, hWritten.textSize_eq,
    String.length_toList]

/-- Lexemes that are kept apart are read back from their text. -/
theorem tokensFrom_written (position : Nat) (ls : List Lexeme) (h : Separated ls) :
    tokensFrom position (written ls) = .ok (placed position ls) := by
  induction ls generalizing position with
  | nil => rw [written_nil, tokensFrom, placed]
  | cons l ls ih =>
      obtain ⟨hFormed, hStop, hOthers⟩ := h
      rw [written_cons, tokensFrom_text position l _ hFormed hStop, ih _ hOthers]
      rfl

/-- A run of name characters makes up a name where no run of digits starts. -/
theorem isName_ofList {cs name : List Char} {c : Char} (hDigits : cs.takeWhile Char.isDigit = [])
    (hName : cs.takeWhile isNameChar = c :: name) : IsName (String.ofList (c :: name)) := by
  cases cs with
  | nil => cases hName
  | cons first rest =>
      have hFirst : first = c := by
        rw [List.takeWhile_cons] at hName
        split at hName
        · exact (List.cons.inj hName).1
        · cases hName
      have hStart : first.isDigit = false := by
        rw [List.takeWhile_cons] at hDigits
        split at hDigits
        · cases hDigits
        · next hNot => exact Bool.eq_false_iff.mpr hNot
      constructor
      · rw [String.toList_ofList]
        exact List.cons_ne_nil _ _
      · rw [String.toList_ofList, ← hName]
        exact fun c' hMember => List.all_eq_true.mp List.all_takeWhile c' hMember
      · rw [String.toList_ofList, ← hFirst]
        rintro c' ⟨⟩
        exact hStart

theorem Symbol.first?_eq_some {cs rest : List Char} {s : Symbol}
    (h : Symbol.first? cs = some (s, rest)) :
    cs = s.text.toList ++ rest ∧ ¬ (Lexeme.symbol s).Continues rest := by
  unfold Symbol.first? at h
  split at h
  case h_2 hNotDots =>
    cases h
    refine ⟨rfl, fun hMore => ?_⟩
    unfold Lexeme.Continues at hMore
    split at hMore
    · exact hNotDots _ rfl
    all_goals simp_all
  case h_12 => cases h
  all_goals
    cases h
    exact ⟨rfl, id⟩

namespace Lexeme

/-- What is cut from the front of a text is written there. -/
theorem isWritten_of_first {cs : List Char} {cut : Cut} (h : first cs = .ok cut) :
    ∃ slice, cs = slice ++ cut.rest ∧ cut.lexeme.IsWritten slice ∧
      ¬ cut.lexeme.Continues cut.rest := by
  unfold first at h
  split at h
  · next s rest hSymbol =>
      cases h
      obtain ⟨hText, hStop⟩ := Symbol.first?_eq_some hSymbol
      exact ⟨s.text.toList, hText, rfl, hStop⟩
  · split at h
    · next d ds hDigits =>
        obtain ⟨hText, hRun, hStop⟩ := run_of_takeWhile hDigits
        dsimp only at h
        split at h
        · cases h
          exact ⟨d :: ds, hText, ⟨List.cons_ne_nil _ _, hRun, by rw [UInt64.toNat_ofNatLT]⟩,
            (not_continues_integer_iff _ _).mpr hStop⟩
        · cases h
    · next hDigits =>
        split at h
        · next c name hName =>
            obtain ⟨hText, -, hStop⟩ := run_of_takeWhile hName
            cases h
            exact ⟨c :: name, hText, ⟨by rw [String.toList_ofList], isName_ofList hDigits hName⟩,
              (not_continues_identifier_iff _ _).mpr hStop⟩
        · cases h

theorem IsWritten.wellFormed {l : Lexeme} {cs : List Char} (h : l.IsWritten cs) :
    l.WellFormed := by
  cases l with
  | identifier name => exact h.2
  | _ => trivial

/-- A lexeme that is cut from a text is read as itself again. -/
theorem first_wellFormed {cs : List Char} {cut : Cut} (h : first cs = .ok cut) :
    cut.lexeme.WellFormed := by
  obtain ⟨slice, -, hWritten, -⟩ := isWritten_of_first h
  exact hWritten.wellFormed

end Lexeme

theorem wellFormed_of_tokensFrom {position : Nat} {cs : List Char} {ts : List Token}
    (h : tokensFrom position cs = .ok ts) : ∀ t ∈ ts, t.lexeme.WellFormed := by
  fun_induction tokensFrom position cs generalizing ts with
  | case1 position =>
      cases h
      exact List.forall_mem_nil _
  | case2 position c cs hBlank ih => exact ih h
  | case3 position c cs hBlank notes hError => cases h
  | case4 position c cs hBlank cut hCut _ token =>
      rename_i ih
      obtain ⟨others, hRest, rfl⟩ := map_eq_ok_iff.mp h
      exact List.forall_mem_cons.mpr ⟨Lexeme.first_wellFormed hCut, ih hRest⟩

end TreeSchema
