import TreeSchema.Proofs.Schema.Writing
import TreeSchema.Schema.Description

/-! How deep a text is nested, and how deep a schema is in writing. The first is
said of the characters alone: how many brackets are open at a place, and how many
list suffixes follow there. The second follows the schema; on written forms of
writable schemas the two agree. -/
namespace TreeSchema.Description

/-- How many `<` and `(` are open after one more character. -/
def bracketStep (depth : Nat) : Char → Nat
  | '<' | '(' => depth + 1
  | '>' | ')' => depth - 1
  | _ => depth

/-- How many `<` and `(` are open after a text. -/
def openBrackets (before : List Char) : Nat :=
  before.foldl bracketStep 0

/-- How many list suffixes a text starts with. -/
def leadingSuffixes : List Char → Nat
  | '[' :: ']' :: rest => leadingSuffixes rest + 1
  | _ => 0

/-- Each `<` and `(` of a text stands inside at most 255 others, and wherever one
is in the text, the open ones and the list suffixes that follow are at most 256. -/
structure NestingFits (text : List Char) : Prop where
  brackets : ∀ before c after, text = before ++ c :: after → c = '<' ∨ c = '(' →
    openBrackets before ≤ 255
  suffixes : ∀ before after, text = before ++ after →
    openBrackets before + leadingSuffixes after ≤ 256

/-- The same for a text that stands inside `depth` open brackets, in one pass. -/
def NestsFrom (depth : Nat) : List Char → Prop
  | [] => depth ≤ 256
  | c :: cs => (c = '<' ∨ c = '(' → depth ≤ 255) ∧ depth + leadingSuffixes (c :: cs) ≤ 256 ∧
      NestsFrom (bracketStep depth c) cs

instance decidableNestsFrom (depth : Nat) : (text : List Char) → Decidable (NestsFrom depth text)
  | [] => inferInstanceAs (Decidable (depth ≤ 256))
  | c :: cs =>
      have := decidableNestsFrom (bracketStep depth c) cs
      inferInstanceAs (Decidable (_ ∧ _ ∧ _))

theorem nestsFrom_iff (depth : Nat) (text : List Char) :
    NestsFrom depth text ↔
      (∀ before c after, text = before ++ c :: after → c = '<' ∨ c = '(' →
        before.foldl bracketStep depth ≤ 255) ∧
      ∀ before after, text = before ++ after →
        before.foldl bracketStep depth + leadingSuffixes after ≤ 256 := by
  induction text generalizing depth with
  | nil =>
      simp only [NestsFrom]
      constructor
      · intro h
        refine ⟨fun before c after hText => by simp at hText, fun before after hText => ?_⟩
        obtain ⟨rfl, rfl⟩ := List.nil_eq_append_iff.mp hText
        exact h
      · rintro ⟨-, hSuffixes⟩
        exact hSuffixes [] [] rfl
  | cons first rest ih =>
      rw [NestsFrom, ih]
      constructor
      · rintro ⟨hOpen, hHere, hBrackets, hSuffixes⟩
        refine ⟨fun before c after hText hBracket => ?_, fun before after hText => ?_⟩
        · cases before with
          | nil =>
              obtain ⟨rfl, rfl⟩ := List.cons.inj hText
              exact hOpen hBracket
          | cons c' before =>
              obtain ⟨rfl, rfl⟩ := List.cons.inj hText
              exact hBrackets before c after rfl hBracket
        · cases before with
          | nil =>
              rw [List.nil_append] at hText
              rw [← hText]
              exact hHere
          | cons c' before =>
              obtain ⟨rfl, rfl⟩ := List.cons.inj hText
              exact hSuffixes before after rfl
      · rintro ⟨hBrackets, hSuffixes⟩
        refine ⟨hBrackets [] first rest rfl, hSuffixes [] _ rfl, ?_, ?_⟩
        · intro before c after hText
          exact hBrackets (first :: before) c after (by rw [hText]; rfl)
        · intro before after hText
          exact hSuffixes (first :: before) after (by rw [hText]; rfl)

theorem nestingFits_iff (text : List Char) : NestingFits text ↔ NestsFrom 0 text := by
  rw [nestsFrom_iff]
  exact ⟨fun h => ⟨h.brackets, h.suffixes⟩, fun h => ⟨h.1, h.2⟩⟩

instance (text : List Char) : Decidable (NestingFits text) :=
  decidable_of_iff _ (nestingFits_iff text).symm

/-! One lemma for each thing that is written. -/

theorem NestsFrom.depth_le {depth : Nat} {text : List Char} (h : NestsFrom depth text) :
    depth + leadingSuffixes text ≤ 256 := by
  cases text with
  | nil => exact h
  | cons c cs => exact h.2.1

theorem leadingSuffixes_cons {c : Char} (cs : List Char) (h : c ≠ '[') :
    leadingSuffixes (c :: cs) = 0 := by
  unfold leadingSuffixes
  split
  · next hText => exact absurd (List.cons.inj hText).1 h
  · rfl

theorem nestsFrom_open (depth : Nat) {c : Char} (rest : List Char) (h : c = '<' ∨ c = '(') :
    NestsFrom depth (c :: rest) ↔ depth < 256 ∧ NestsFrom (depth + 1) rest := by
  have hPlain : c ≠ '[' := by rcases h with rfl | rfl <;> decide
  have hStep : bracketStep depth c = depth + 1 := by rcases h with rfl | rfl <;> rfl
  rw [NestsFrom, leadingSuffixes_cons rest hPlain, hStep]
  constructor
  · rintro ⟨hOpen, -, hRest⟩
    exact ⟨Nat.lt_succ_of_le (hOpen h), hRest⟩
  · rintro ⟨hOpen, hRest⟩
    exact ⟨fun _ => by omega, by omega, hRest⟩

theorem nestsFrom_close (depth : Nat) {c : Char} (rest : List Char) (h : c = '>' ∨ c = ')') :
    NestsFrom (depth + 1) (c :: rest) ↔ depth < 256 ∧ NestsFrom depth rest := by
  have hPlain : c ≠ '[' ∧ c ≠ '<' ∧ c ≠ '(' := by rcases h with rfl | rfl <;> decide
  have hStep : bracketStep (depth + 1) c = depth := by rcases h with rfl | rfl <;> rfl
  rw [NestsFrom, leadingSuffixes_cons rest hPlain.1, hStep]
  simp only [hPlain.2.1, hPlain.2.2, or_self, false_implies, true_and]
  constructor
  · rintro ⟨hHere, hRest⟩
    exact ⟨by omega, hRest⟩
  · rintro ⟨hHere, hRest⟩
    exact ⟨by omega, hRest⟩

/-- What stands between two brackets is one level deeper. -/
theorem nestsFrom_between (depth : Nat) {first last : Char} {inside rest : List Char}
    {fits : Prop} (hFirst : first = '<' ∨ first = '(') (hLast : last = '>' ∨ last = ')')
    (hInside : NestsFrom (depth + 1) (inside ++ last :: rest) ↔
      fits ∧ NestsFrom (depth + 1) (last :: rest)) :
    NestsFrom depth (first :: (inside ++ last :: rest)) ↔
      (depth < 256 ∧ fits) ∧ depth + leadingSuffixes rest ≤ 256 ∧ NestsFrom depth rest := by
  rw [nestsFrom_open depth _ hFirst, hInside, nestsFrom_close depth rest hLast]
  constructor
  · rintro ⟨hOpen, hFits, -, hNests⟩
    exact ⟨⟨hOpen, hFits⟩, hNests.depth_le, hNests⟩
  · rintro ⟨⟨hOpen, hFits⟩, -, hNests⟩
    exact ⟨hOpen, hFits, hOpen, hNests⟩

/-- Characters other than brackets nest nothing. -/
theorem nestsFrom_plain (depth : Nat) {c : Char} (rest : List Char)
    (h : isNameChar c = true ∨ c = '|' ∨ c = '.') :
    NestsFrom depth (c :: rest) ↔ NestsFrom depth rest := by
  have hPlain : c ≠ '[' ∧ c ≠ '<' ∧ c ≠ '(' ∧ bracketStep depth c = depth := by
    rcases h with h | rfl | rfl
    · refine ⟨?_, ?_, ?_, ?_⟩
      · rintro rfl
        exact absurd h (by decide)
      · rintro rfl
        exact absurd h (by decide)
      · rintro rfl
        exact absurd h (by decide)
      · unfold bracketStep
        split
        all_goals first | rfl | exact absurd h (by decide)
    · exact ⟨by decide, by decide, by decide, rfl⟩
    · exact ⟨by decide, by decide, by decide, rfl⟩
  obtain ⟨hSuffix, hTree, hGroup, hStep⟩ := hPlain
  rw [NestsFrom, leadingSuffixes_cons rest hSuffix, hStep]
  simp only [hTree, hGroup, or_self, false_implies, true_and]
  constructor
  · rintro ⟨-, hRest⟩
    exact hRest
  · intro hRest
    have hDepth := hRest.depth_le
    exact ⟨by omega, hRest⟩

theorem nestsFrom_word (depth : Nat) {word : List Char} (rest : List Char)
    (h : ∀ c ∈ word, isNameChar c = true) :
    NestsFrom depth (word ++ rest) ↔ NestsFrom depth rest := by
  induction word with
  | nil => rfl
  | cons c word ih =>
      rw [List.forall_mem_cons] at h
      rw [List.cons_append, nestsFrom_plain depth _ (.inl h.1), ih h.2]

theorem nestsFrom_suffix (depth : Nat) (rest : List Char) :
    NestsFrom depth ('[' :: ']' :: rest) ↔
      depth + leadingSuffixes rest < 256 ∧ NestsFrom depth rest := by
  have hInner : NestsFrom depth (']' :: rest) ↔ depth ≤ 256 ∧ NestsFrom depth rest := by
    rw [NestsFrom, leadingSuffixes_cons rest (by decide)]
    simp [bracketStep]
  have hStep : bracketStep depth '[' = depth := rfl
  have hCount : leadingSuffixes ('[' :: ']' :: rest) = leadingSuffixes rest + 1 := rfl
  rw [NestsFrom, hStep, hCount, hInner]
  constructor
  · rintro ⟨-, hHere, -, hRest⟩
    exact ⟨by omega, hRest⟩
  · rintro ⟨hHere, hRest⟩
    exact ⟨fun hBracket => absurd hBracket (by decide), by omega, by omega, hRest⟩

end TreeSchema.Description

namespace TreeSchema

open Description

/-- The list suffixes at the end of a schema that is written as an atom. -/
def Schema.suffixes : Schema → Nat
  | .list item => item.suffixes + 1
  | _ => 0

mutual

/-- Whether the written form stays within the limit inside `depth` open brackets. -/
def Schema.Fits (depth : Nat) : Schema → Prop
  | .choice alternatives => Alternative.AllFit depth alternatives
  | .list item =>
      (if item.isGrouped then depth < maxNesting ∧ item.Fits (depth + 1) else item.Fits depth) ∧
        depth + item.suffixes < maxNesting
  | .pair left right =>
      depth < maxNesting ∧ left.Fits (depth + 1) ∧ right.Fits (depth + 1)

def Alternative.Fits (depth : Nat) : Alternative → Prop
  | .atom _ => True
  | .schema s => s.Fits depth

def Alternative.AllFit (depth : Nat) : List Alternative → Prop
  | [] => True
  | a :: as => a.Fits depth ∧ Alternative.AllFit depth as

end

/-- The same where the schema is written as an atom, in parentheses if needed. -/
def Schema.AtomFits (depth : Nat) (s : Schema) : Prop :=
  if s.isGrouped then depth < maxNesting ∧ s.Fits (depth + 1) else s.Fits depth

theorem Schema.suffixes_le {depth : Nat} {s : Schema} (hDepth : depth ≤ maxNesting)
    (h : s.Fits depth) : depth + s.suffixes ≤ maxNesting := by
  cases s with
  | list item => exact h.2
  | _ => exact hDepth

/-- A schema of one atom is written like the atom. -/
theorem Atom.nestsFrom (depth : Nat) {a : Atom} (rest : List Char)
    (hName : (Alternative.atom a).ProperName) :
    NestsFrom depth (a.lexeme.text.toList ++ rest) ↔ NestsFrom depth rest := by
  apply nestsFrom_word
  cases a with
  | named name => exact hName.chars
  | number n =>
      intro c hMember
      exact isNameChar_of_isDigit (isDigit_of_mem_repr hMember)

/-- What is not put in parentheses is written alike in both places. -/
theorem Schema.nestsFrom_of_atom {s : Schema} {depth : Nat} {rest : List Char}
    (hPlain : s.isGrouped = false)
    (hAtom : NestsFrom depth (written s.lexemes ++ rest) ↔
      s.Fits depth ∧ depth + s.suffixes + leadingSuffixes rest ≤ maxNesting ∧
        NestsFrom depth rest) :
    (NestsFrom depth (written (inGroup s.isGrouped s.lexemes) ++ rest) ↔
      s.AtomFits depth ∧ depth + s.suffixes + leadingSuffixes rest ≤ maxNesting ∧
        NestsFrom depth rest) ∧
    (leadingSuffixes rest = 0 →
      (NestsFrom depth (written s.lexemes ++ rest) ↔ s.Fits depth ∧ NestsFrom depth rest)) := by
  rw [Schema.AtomFits, hPlain]
  refine ⟨hAtom, fun hRest => ?_⟩
  rw [hAtom, hRest]
  constructor
  · rintro ⟨hFits, -, hNests⟩
    exact ⟨hFits, hNests⟩
  · rintro ⟨hFits, hNests⟩
    have hDepth := hNests.depth_le
    exact ⟨hFits, s.suffixes_le (by rw [maxNesting]; omega) hFits, hNests⟩

mutual

/-- The written form of a schema, first as an atom before any suffixes, then where
no suffix follows. -/
theorem Schema.nestsFrom : (s : Schema) → s.Writable → (depth : Nat) → (rest : List Char) →
    (NestsFrom depth (written (inGroup s.isGrouped s.lexemes) ++ rest) ↔
      s.AtomFits depth ∧ depth + s.suffixes + leadingSuffixes rest ≤ maxNesting ∧
        NestsFrom depth rest) ∧
    (leadingSuffixes rest = 0 →
      (NestsFrom depth (written s.lexemes ++ rest) ↔ s.Fits depth ∧ NestsFrom depth rest))
  | .choice [], hWritable, _, _ => absurd rfl hWritable.1.nonempty
  | .choice [.schema s], hWritable, _, _ =>
      absurd (hWritable.1.single (.schema s) rfl) Bool.false_ne_true
  | .choice [.atom a], hWritable, depth, rest => by
      have hName := hWritable.1.names (.atom a) List.mem_cons_self
      have hWord := Atom.nestsFrom depth rest hName
      apply Schema.nestsFrom_of_atom rfl
      simp only [Schema.lexemes, Alternative.joinedLexemes, Alternative.lexemes, written_cons,
        written_nil, List.append_nil, hWord, Schema.Fits, Alternative.AllFit, Alternative.Fits,
        and_self, true_and, Schema.suffixes, Nat.add_zero]
      exact ⟨fun h => ⟨h.depth_le, h⟩, fun h => h.2⟩
  | .choice (a :: b :: others), hWritable, depth, rest => by
      have hJoined (depth : Nat) (rest : List Char) (hRest : leadingSuffixes rest = 0) :=
        Alternative.nestsFrom_joined (a :: b :: others) (by simp) hWritable.1.names hWritable.2
          depth rest hRest
      refine ⟨?_, hJoined depth rest⟩
      have hInside := hJoined (depth + 1) (')' :: rest) rfl
      have hGroup : written (inGroup true (Schema.choice (a :: b :: others)).lexemes) ++ rest =
          '(' :: (written (Alternative.joinedLexemes (a :: b :: others)) ++ ')' :: rest) := by
        simp [inGroup, Schema.lexemes, Lexeme.text, Symbol.text]
      rw [Schema.isGrouped, hGroup]
      exact nestsFrom_between depth (.inr rfl) (.inr rfl) hInside
  | .list item, hWritable, depth, rest => by
      have hItem := (item.nestsFrom hWritable depth ('[' :: ']' :: rest)).1
      rw [nestsFrom_suffix, leadingSuffixes, Schema.AtomFits] at hItem
      apply Schema.nestsFrom_of_atom rfl
      have hList : written (Schema.list item).lexemes ++ rest =
          written (inGroup item.isGrouped item.lexemes) ++ '[' :: ']' :: rest := by
        simp [Schema.lexemes, Lexeme.text, Symbol.text]
      rw [hList, hItem, Schema.Fits, Schema.suffixes]
      simp only [maxNesting]
      constructor
      · rintro ⟨hFits, hHere, -, hNests⟩
        exact ⟨⟨hFits, by omega⟩, by omega, hNests⟩
      · rintro ⟨⟨hFits, -⟩, hHere, hNests⟩
        exact ⟨hFits, by omega, by omega, hNests⟩
  | .pair left right, ⟨hLeft, hRight⟩, depth, rest => by
      have hAfter := (right.nestsFrom hRight (depth + 1) ('>' :: rest)).2 rfl
      have hInside := (left.nestsFrom hLeft (depth + 1)
        ('.' :: (written right.lexemes ++ '>' :: rest))).2 rfl
      rw [nestsFrom_plain _ _ (.inr (.inr rfl)), hAfter, ← and_assoc, ← List.cons_append,
        ← List.append_assoc] at hInside
      have hPair : written (Schema.pair left right).lexemes ++ rest =
          '<' :: (written left.lexemes ++ '.' :: written right.lexemes ++ '>' :: rest) := by
        simp [Schema.lexemes, Lexeme.text, Symbol.text]
      apply Schema.nestsFrom_of_atom rfl
      rw [hPair]
      exact nestsFrom_between depth (.inl rfl) (.inl rfl) hInside

theorem Alternative.nestsFrom : (a : Alternative) → a.ProperName →
    a.Everywhere WritableChoice → (depth : Nat) → (rest : List Char) →
    leadingSuffixes rest = 0 →
    (NestsFrom depth (written a.lexemes ++ rest) ↔ a.Fits depth ∧ NestsFrom depth rest)
  | .atom a, hName, _, depth, rest, _ => by
      have h := Atom.nestsFrom depth rest hName
      simpa [Alternative.lexemes, Alternative.Fits] using h
  | .schema s, _, hWritable, depth, rest, hRest => (s.nestsFrom hWritable depth rest).2 hRest

theorem Alternative.nestsFrom_joined : (as : List Alternative) → as ≠ [] →
    (∀ a ∈ as, a.ProperName) → Alternative.AllEverywhere WritableChoice as →
    (depth : Nat) → (rest : List Char) → leadingSuffixes rest = 0 →
    (NestsFrom depth (written (Alternative.joinedLexemes as) ++ rest) ↔
      Alternative.AllFit depth as ∧ NestsFrom depth rest)
  | [], hNonempty, _, _, _, _, _ => absurd rfl hNonempty
  | [only], _, hNames, hAll, depth, rest, hRest => by
      have h := only.nestsFrom (hNames only List.mem_cons_self) hAll.1 depth rest hRest
      simpa [Alternative.joinedLexemes, Alternative.AllFit] using h
  | first :: second :: others, _, hNames, hAll, depth, rest, hRest => by
      rw [List.forall_mem_cons] at hNames
      have hOthers := Alternative.nestsFrom_joined (second :: others) (by simp) hNames.2 hAll.2
        depth rest hRest
      have hFirst := first.nestsFrom hNames.1 hAll.1 depth
        ('|' :: (written (Alternative.joinedLexemes (second :: others)) ++ rest)) rfl
      rw [nestsFrom_plain depth _ (.inr (.inl rfl)), hOthers] at hFirst
      rw [Alternative.joinedLexemes, Alternative.AllFit, and_assoc, ← hFirst]
      · simp [Lexeme.text, Symbol.text]
      · simp

end

end TreeSchema
