import TreeSchema.Proofs.Schema.Viable

/-! Errors in descriptions. Unless nesting stops the reader, the error is at the first
token after which no description can go on, or at the end of tokens that are only the
start of a description; and what its message lists as expected there can follow. -/
namespace TreeSchema.Description

open Progress

/-- Whether a message names a token that was found, and lists what is expected in its place. -/
structure NamesToken (message found : String) (expected : List String) : Prop where
  nothing : expected = [] → message = "Unexpected token: '" ++ found ++ "'"
  single : ∀ name, expected = [name] →
    message = "Unexpected token: expected '" ++ name ++ "' got '" ++ found ++ "'"
  several : 1 < expected.length →
    message = "Unexpected token: expected one of '" ++ String.intercalate "', '" expected ++
      "' got '" ++ found ++ "'"

/-- Whether a message is about an end, and lists what is expected to follow. -/
structure NamesEnd (message : String) (expected : List String) : Prop where
  nothing : expected = [] → message = "Unexpected end of input"
  single : ∀ name, expected = [name] →
    message = "Unexpected end of input: Expected '" ++ name ++ "'"
  several : 1 < expected.length →
    message = "Unexpected end of input: Expected one of '" ++
      String.intercalate "', '" expected ++ "'"

/-- An error about the first of some tokens with which no description can go on. The
tokens before it start a description, also with each lexeme after them that the message
lists as expected. -/
def BlamesToken (ts : List Token) (e : SyntaxError) : Prop :=
  ∃ before t after expected, ts = before ++ t :: after ∧
    e = { cause := .unexpected t.lexeme.text expected, span := t.span } ∧
    NamesToken e.message t.lexeme.text expected ∧
    Viable (before.map (·.lexeme)) ∧ ¬ Viable (before.map (·.lexeme) ++ [t.lexeme]) ∧
    (∀ name ∈ expected, ∃ l : Lexeme, l.describe = name) ∧
    ∀ l : Lexeme, l.describe ∈ expected → Viable (before.map (·.lexeme) ++ [l])

/-- An error about the end of tokens that start a description, also with each lexeme after
them that the message lists as expected, but are none. -/
def BlamesEnd (ts : List Token) (e : SyntaxError) : Prop :=
  ∃ last expected, ts.getLast? = some last ∧
    e = { cause := .ended expected, span := .empty last.span.stop } ∧
    NamesEnd e.message expected ∧
    Viable (ts.map (·.lexeme)) ∧ ¬ Sentence (ts.map (·.lexeme)) ∧
    (∀ name ∈ expected, ∃ l : Lexeme, l.describe = name) ∧
    ∀ l : Lexeme, l.describe ∈ expected → Viable (ts.map (·.lexeme) ++ [l])

variable {p : Progress} {t : Token} {ts : List Token} {e : SyntaxError}

theorem enter_eq_error {levels : List Level} {inside : Progress}
    (h : enter levels t inside = .error e) : e = tooDeep t.span := by
  unfold enter at h
  split at h
  · cases h
    rfl
  · cases h

theorem stepAtom_eq_error {levels : List Level} {earlier : List Alternative}
    (h : stepAtom levels earlier t = .error e) :
    e = unexpected ⟨levels, .atom earlier⟩ t ∨ e = tooDeep t.span := by
  unfold stepAtom at h
  split at h
  · cases h
  · cases h
  · exact .inr (enter_eq_error h)
  · exact .inr (enter_eq_error h)
  · exact .inr (enter_eq_error h)
  · cases h
    exact .inl rfl

/-- Where an item may start, the same is expected as where an atom must start. -/
theorem stepItem_eq_error {levels : List Level} {before : List Schema}
    {outer : List Alternative} (h : stepItem levels before outer t = .error e) :
    e = unexpected ⟨levels, .item before outer⟩ t ∨ e = tooDeep t.span := by
  unfold stepItem at h
  split at h
  · cases h
  · cases h
  · split at h
    · cases h
      exact .inr rfl
    · exact stepAtom_eq_error h

/-- A token is refused because of what is expected in its place, or because of nesting: its
own, or that of the list suffix which it completes. -/
theorem step_eq_error_at (h : p.step t = .error e) :
    e = p.unexpected t ∨ e = tooDeep t.span ∨
      ∃ earlier core suffixes opened, p.place = .suffix earlier core suffixes opened ∧
        e = tooDeep opened := by
  obtain ⟨levels, place⟩ := p
  unfold step at h
  split at h
  · next earlier hPlace =>
      obtain rfl : place = .atom earlier := hPlace
      exact (stepAtom_eq_error h).imp_right .inl
  · next before outer hPlace =>
      obtain rfl : place = .item before outer := hPlace
      exact (stepItem_eq_error h).imp_right .inl
  · cases h
  · next earlier core suffixes opened hPlace _ =>
      split at h
      · cases h
        exact .inr (.inr ⟨earlier, core, suffixes, opened, hPlace, rfl⟩)
      · cases h
  · cases h
  · cases h
  · split at h
    · next level outer hLevels =>
        cases hNext : stepBracket level outer _ _ with
        | none =>
            rw [hNext] at h
            cases h
            exact .inl rfl
        | some next =>
            rw [hNext] at h
            cases h
    · cases h
      exact .inl rfl
  · cases h
    exact .inl rfl

theorem step_eq_error (h : p.step t = .error e) :
    e = p.unexpected t ∨ ∃ span, e = tooDeep span := by
  rcases step_eq_error_at h with hPlace | hDeep | ⟨-, -, -, opened, -, hDeep⟩
  · exact .inl hPlace
  · exact .inr ⟨t.span, hDeep⟩
  · exact .inr ⟨opened, hDeep⟩

theorem finish_eq_error_at {size : Nat} (h : p.finish size = .error e) :
    e = { cause := .ended p.expected, span := .empty size } ∨ e = tooDeep (.empty size) := by
  unfold finish at h
  split at h
  · cases h
  · split at h
    · cases h
      exact .inr rfl
    · cases h
      exact .inl rfl
  · cases h
    exact .inl rfl

theorem finish_eq_error {size : Nat} (h : p.finish size = .error e) :
    e = { cause := .ended p.expected, span := .empty size } ∨ ∃ span, e = tooDeep span :=
  (finish_eq_error_at h).imp_right fun hDeep => ⟨.empty size, hDeep⟩

/-- What is listed as expected are names of lexemes. -/
theorem exists_describe_of_mem_expected {name : String} (h : name ∈ p.expected) :
    ∃ l : Lexeme, l.describe = name := by
  have hStart (h : name ∈ atomStart) : ∃ l : Lexeme, l.describe = name := by
    simp only [atomStart, List.mem_cons, List.not_mem_nil, or_false] at h
    rcases h with rfl | rfl | rfl | rfl | rfl
    · exact ⟨.identifier "", rfl⟩
    · exact ⟨.integer 0, rfl⟩
    · exact ⟨.symbol .groupOpen, rfl⟩
    · exact ⟨.symbol .treeOpen, rfl⟩
    · exact ⟨.symbol .listOpen, rfl⟩
  unfold expected at h
  split at h
  · exact hStart h
  · exact hStart h
  · exact ⟨.symbol .listClose, (List.mem_singleton.mp h).symm⟩
  · exact ⟨.symbol .listClose, (List.mem_singleton.mp h).symm⟩
  · obtain ⟨symbol, -, rfl⟩ := List.mem_map.mp h
    exact ⟨.symbol symbol, rfl⟩
  · cases h

theorem reached_start (h : ts.foldlM step .start = .ok p) : p.Reached (ts.map (·.lexeme)) :=
  reached_of_foldlM (show Reached [] .start from Begun.start) h

/-- Tokens with some lexemes, wherever they stand. -/
theorem exists_tokens (ls : List Lexeme) : ∃ ts : List Token, ts.map (·.lexeme) = ls :=
  ⟨ls.map fun l => ⟨l, .empty 0⟩, by simp [Function.comp_def]⟩

/-- Of a sentence the reader refuses no token but for nesting. -/
theorem not_viable_of_step {before : List Token} (hRun : before.foldlM step .start = .ok p)
    (hStop : p.step t = .error (p.unexpected t)) :
    ¬ Viable (before.map (·.lexeme) ++ [t.lexeme]) := by
  rintro ⟨rest, limit, s, h⟩
  obtain ⟨after, rfl⟩ := exists_tokens rest
  have hFails : (before ++ t :: after).foldlM step .start = .error (p.unexpected t) := by
    rw [List.foldlM_append, hRun]
    change (t :: after).foldlM step p = _
    rw [List.foldlM_cons, hStop]
    rfl
  have hFollows := h.isRead [] rfl (before ++ t :: after) (by simp)
  rw [show (⟨[], .atom []⟩ : Progress) = .start from rfl, hFails] at hFollows
  rcases hFollows with ⟨p', hRead, -⟩ | ⟨-, span, hDeep⟩
  · cases hRead
  · cases hDeep

theorem toList_prefix_append {start first : String} (rest : String)
    (h : start.toList <+: first.toList) : start.toList <+: (first ++ rest).toList := by
  rw [String.toList_append]
  exact h.trans (List.prefix_append _ _)

theorem namesToken_message (found : String) (expected : List String) (position : Nat) :
    NamesToken ((SyntaxError.Cause.unexpected found expected).message position) found expected where
  nothing := by
    rintro rfl
    exact SyntaxError.Cause.message_unexpected_nil found position
  single := by
    rintro name rfl
    exact SyntaxError.Cause.message_unexpected_singleton found name position
  several h := by
    match expected, h with
    | first :: second :: others, _ =>
        exact SyntaxError.Cause.message_unexpected_several found first second others position

theorem namesEnd_message (expected : List String) (position : Nat) :
    NamesEnd ((SyntaxError.Cause.ended expected).message position) expected where
  nothing := by
    rintro rfl
    exact SyntaxError.Cause.message_ended_nil position
  single := by
    rintro name rfl
    exact SyntaxError.Cause.message_ended_singleton name position
  several h := by
    match expected, h with
    | first :: second :: others, _ =>
        exact SyntaxError.Cause.message_ended_several first second others position

theorem message_unexpected (found : String) (expected : List String) (position : Nat) :
    "Unexpected token".toList <+:
      ((SyntaxError.Cause.unexpected found expected).message position).toList := by
  cases expected with
  | nil =>
      rw [SyntaxError.Cause.message_unexpected_nil]
      exact toList_prefix_append _ (toList_prefix_append _ (by decide))
  | cons name names =>
      rw [SyntaxError.Cause.message_unexpected_cons]
      iterate 4 apply toList_prefix_append
      decide

theorem message_ended (expected : List String) (position : Nat) :
    "Unexpected end of input".toList <+:
      ((SyntaxError.Cause.ended expected).message position).toList := by
  cases expected with
  | nil => exact List.prefix_refl _
  | cons name names => exact toList_prefix_append _ (by decide)

/-- Tokens that are not read to the end for want of more are no sentence. -/
theorem not_sentence_of_ended {expected : List String} {span : Span}
    (h : read ts = .error { cause := .ended expected, span }) :
    ¬ Sentence (ts.map (·.lexeme)) := by
  rintro ⟨limit, s, hDerives⟩
  have hOutcome := (hDerives.isRead [] rfl).read_eq hDerives.lexemes_ne_nil rfl
  rw [h] at hOutcome
  rcases hOutcome with hRead | ⟨-, deep, hDeep⟩
  · cases hRead
  · cases hDeep

/-- The first token that cannot go on is blamed, or the end if all can. Otherwise the
description is nested too deep. -/
theorem read_eq_error (h : read ts = .error e) :
    (BlamesToken ts e ∧ "Unexpected token".toList <+: e.message.toList) ∨
      (BlamesEnd ts e ∧ "Unexpected end of input".toList <+: e.message.toList) ∨
      ∃ span, e = tooDeep span ∧ e.message = "Type nesting too deep" := by
  have hNonempty : ts ≠ [] := by
    rintro rfl
    cases h
  have hRead := h
  rw [read_eq_foldlM hNonempty] at hRead
  rcases bind_eq_error_iff.mp hRead with hRun | ⟨p, hRun, hFinish⟩
  · obtain ⟨before, t, after, p, rfl, hBefore, hStop⟩ := exists_step_of_foldlM_error hRun
    rcases step_eq_error hStop with rfl | ⟨span, rfl⟩
    · have hReached := reached_start hBefore
      exact .inl ⟨⟨before, t, after, p.expected, rfl, rfl, namesToken_message _ _ _,
        hReached.viable, not_viable_of_step hBefore hStop,
        fun name hName => exists_describe_of_mem_expected hName,
        fun l hExpected => hReached.viable_expected hExpected⟩, message_unexpected _ _ _⟩
    · exact .inr (.inr ⟨span, rfl, rfl⟩)
  · have hReached := reached_start hRun
    rcases finish_eq_error hFinish with rfl | ⟨span, rfl⟩
    · obtain ⟨last, hLast⟩ := Option.isSome_iff_exists.mp (List.getLast?_isSome.mpr hNonempty)
      have hEnd : endOf ts = last.span.stop := by
        rw [endOf, hLast]
        rfl
      exact .inr (.inl ⟨⟨last, p.expected, hLast, by rw [hEnd], namesEnd_message _ _,
        hReached.viable, not_sentence_of_ended h,
        fun name hName => exists_describe_of_mem_expected hName,
        fun l hExpected => hReached.viable_expected hExpected⟩, message_ended _ _⟩)
    · exact .inr (.inr ⟨span, rfl, rfl⟩)

/-- The lexemes of `<int.[3,4|]>`. -/
def barBeforeClose : List Lexeme :=
  [.symbol .treeOpen, .identifier "int", .symbol .dot, .symbol .listOpen, .integer 3,
    .symbol .comma, .integer 4, .symbol .bar, .symbol .listClose, .symbol .treeClose]

/-- In `<int.[3,4|]>` the first closing bracket is blamed, where an atom is expected. -/
theorem read_eq_error_bar :
    let e : SyntaxError := { cause := .unexpected "]" atomStart, span := ⟨10, 11⟩ }
    read (placed 0 barBeforeClose) = .error e ∧ BlamesToken (placed 0 barBeforeClose) e ∧
      e.message =
        "Unexpected token: expected one of 'identifier', 'integer', '(', '<', '[' got ']'" := by
  intro e
  have hRead : read (placed 0 barBeforeClose) = .error e := by
    rfl
  refine ⟨hRead, ?_, by decide +kernel⟩
  rcases read_eq_error hRead with ⟨hBlames, -⟩ | ⟨-, hMessage⟩ | ⟨span, hDeep, -⟩
  · exact hBlames
  · exact absurd hMessage (by decide +kernel)
  · cases congrArg SyntaxError.cause hDeep

end TreeSchema.Description
