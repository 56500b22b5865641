import TreeSchema.Proofs.Schema.Sentences

/-! Prefixes of descriptions, where nesting has no limit. What brings the reader to a
place can be completed to a sentence, and so it can after each token that is expected at
the place. The limit of the reader does not matter here: brackets and list suffixes that
it would refuse still belong to sentences. -/
namespace TreeSchema.Description

open Progress

/-- Whether lexemes are a description. Every derivation fits within some limit, so the
grammar without a limit is the grammar with any. -/
def Sentence (ls : List Lexeme) : Prop :=
  ∃ limit s, Derives limit 0 ls (.choice s)

/-- Whether a description can start with some lexemes. -/
def Viable (ls : List Lexeme) : Prop :=
  ∃ rest, Sentence (ls ++ rest)

theorem Viable.of_append {ls : List Lexeme} (more : List Lexeme) (h : Viable (ls ++ more)) :
    Viable ls := by
  obtain ⟨rest, hSentence⟩ := h
  rw [List.append_assoc] at hSentence
  exact ⟨more ++ rest, hSentence⟩

variable {limit d : Nat} {levels : List Level} {earlier : List Alternative}
  {ls inside : List Lexeme} {s : Schema}

/-- An atom without suffixes makes up a whole choice. -/
theorem Derives.choice_of_core (h : Derives limit d ls (.core s)) :
    Derives limit d ls (.choice s) := by
  have hOnly := h.only 0 (.inl rfl)
  rw [suffixLexemes, List.replicate_zero, List.flatten_nil, List.append_nil] at hOnly
  exact hOnly

theorem Derives.name_choice (limit d : Nat) (name : String) :
    Derives limit d [.identifier name] (.choice (.named name)) :=
  (Derives.name name).choice_of_core

/-- Whatever stands in a bracket so far, the bracket can be closed. -/
theorem Bracket.Opens.exists_core {bracket : Bracket} (h : bracket.Opens d ls)
    (choice : Derives limit (d + bracket.depth) inside (.choice s)) :
    ∃ closing s', Derives (limit + maxNesting) d (ls ++ (inside ++ closing)) (.core s') := by
  have hInside := choice.mono (Nat.le_add_right limit maxNesting)
  cases bracket with
  | group =>
      obtain ⟨rfl, hDepth⟩ := h
      exact ⟨_, _, .group (by omega) hInside⟩
  | left =>
      obtain ⟨rfl, hDepth⟩ := h
      exact ⟨_, _, .pair (by omega) hInside (.name_choice _ _ "nil")⟩
  | right left =>
      obtain ⟨first, rfl, hDepth, hLeft⟩ := h
      refine ⟨[.symbol .treeClose], .pair left s, ?_⟩
      have hPair := Derives.pair (by omega) (hLeft.mono (Nat.le_add_left maxNesting limit)) hInside
      rw [List.cons_append, List.append_assoc]
      exact hPair
  | items before =>
      obtain ⟨first, rfl, hDepth, hItems⟩ := h
      have hDeeper : d + (Bracket.items before).depth = d + 1 + before.reverse.length := by
        rw [Bracket.depth, List.length_reverse]
        omega
      rw [hDeeper] at hInside
      have hAll := hItems.items (Nat.le_add_left maxNesting limit) hInside
      refine ⟨[.symbol .listClose], .items (before.reverse ++ [s]) (.named "nil"), ?_⟩
      have hClosed := Derives.closed (by simp; omega) hAll
      rw [List.append_assoc] at hClosed
      exact hClosed

/-- One more atom after some alternatives can end the choice. -/
theorem Followed.choice {parts : List Schema} (h : Followed .bar .atoms d ls parts)
    (hLimit : maxNesting ≤ limit) (atom : Derives limit d inside (.atom s)) :
    Derives limit d (ls ++ inside) (.choice (.union (parts ++ [s]))) :=
  .choice (h.atoms hLimit atom)

/-- A choice inside some levels is part of a sentence. -/
theorem Opened.viable (h : Opened levels ls)
    (choice : Derives limit (depth levels) inside (.choice s)) : Viable (ls ++ inside) := by
  induction h generalizing limit inside s with
  | nil => exact ⟨[], limit, s, by rw [List.append_nil]; exact choice⟩
  | @cons levels bracket ls before opening parts outer earlier opens ih =>
      change Derives limit (bracket.depth + depth levels) inside (.choice s) at choice
      rw [Nat.add_comm] at choice
      obtain ⟨closing, s', hCore⟩ := opens.exists_core choice
      have hAtom := Derives.suffixed 0 (.inl rfl) hCore
      have hChoice := earlier.choice (Nat.le_add_left maxNesting limit) hAtom
      have hOuter := ih hChoice
      rw [suffixLexemes, List.replicate_zero, List.flatten_nil, List.append_nil] at hOuter
      apply Viable.of_append closing
      simpa using hOuter

namespace Begun

/-- Where an atom may start, any atom can stand. -/
theorem viable_atom (h : Begun levels earlier ls)
    (atom : Derives limit (depth levels) inside (.atom s)) : Viable (ls ++ inside) := by
  cases h with
  | mk outer before =>
      have hAtom := atom.mono (Nat.le_add_right limit maxNesting)
      rw [List.append_assoc]
      exact outer.viable (before.choice (Nat.le_add_left maxNesting limit) hAtom)

theorem viable_core (h : Begun levels earlier ls)
    (core : Derives limit (depth levels) inside (.core s)) : Viable (ls ++ inside) := by
  have hAtom := Derives.suffixed 0 (.inl rfl) core
  have hViable := h.viable_atom hAtom
  rw [suffixLexemes, List.replicate_zero, List.flatten_nil, List.append_nil] at hViable
  exact hViable

end Begun

theorem eq_symbol_of_describe {l : Lexeme} {symbol : Symbol} (h : l.describe = symbol.text) :
    l = .symbol symbol := by
  cases l with
  | identifier name => cases symbol <;> simp [Lexeme.describe, Symbol.text] at h
  | integer n => cases symbol <;> simp [Lexeme.describe, Symbol.text] at h
  | symbol other => cases other <;> cases symbol <;> first | rfl | exact absurd h (by decide)

/-- Each lexeme that may start an atom does start one. -/
theorem exists_core_of_mem_atomStart {l : Lexeme} (d : Nat) (h : l.describe ∈ atomStart) :
    ∃ rest s, Derives (d + 1) d (l :: rest) (.core s) := by
  cases l with
  | identifier name => exact ⟨[], _, .name name⟩
  | integer n => exact ⟨[], _, .number n⟩
  | symbol symbol =>
      cases symbol with
      | groupOpen => exact ⟨_, _, .group (by omega) (.name_choice _ _ "nil")⟩
      | treeOpen =>
          exact ⟨_, _, .pair (by omega) (.name_choice _ _ "nil") (.name_choice _ _ "nil")⟩
      | listOpen => exact ⟨_, _, .none (by omega)⟩
      | _ => exact absurd h (by decide)

namespace Progress.Reached

/-- Before an atom ends, each expected lexeme keeps the way to a sentence open. -/
theorem viable_inside_atom {p : Progress} {l : Lexeme} (h : p.Reached ls)
    (hPlace : ∀ earlier core k, p.place ≠ .after earlier core k)
    (hExpected : l.describe ∈ p.expected) : Viable (ls ++ [l]) := by
  obtain ⟨levels, place⟩ := p
  cases place with
  | atom earlier =>
      obtain ⟨rest, s, hCore⟩ := exists_core_of_mem_atomStart (depth levels) hExpected
      have hViable := Begun.viable_core h hCore
      exact Viable.of_append rest (by simpa using hViable)
  | item before outer =>
      obtain ⟨ls, first, rfl, hBegun, hFits, hItems⟩ := h
      obtain ⟨rest, s, hCore⟩ :=
        exists_core_of_mem_atomStart (depth levels + 1 + before.reverse.length) hExpected
      have hLast := hCore.choice_of_core.mono (Nat.le_add_right _ maxNesting)
      have hAll := hItems.items (Nat.le_add_left maxNesting _) hLast
      have hViable := hBegun.viable_core (.closed (by simp; omega) hAll)
      exact Viable.of_append (rest ++ [.symbol .listClose]) (by simpa using hViable)
  | tail before outer =>
      obtain ⟨ls, first, rfl, hBegun, hFits, hItems⟩ := h
      obtain rfl := eq_symbol_of_describe (List.mem_singleton.mp hExpected)
      have hViable := hBegun.viable_core (hItems.opened (by simpa using hFits))
      simpa using hViable
  | after earlier core k => exact absurd rfl (hPlace earlier core k)
  | suffix earlier core k opened =>
      obtain ⟨ls, first, rfl, hBegun, hAtom⟩ := h
      obtain rfl := eq_symbol_of_describe (List.mem_singleton.mp hExpected)
      cases hAtom with
      | @mk inside s k fits hCore =>
          have hLarge := hCore.mono (Nat.le_add_right maxNesting (depth levels + (k + 1)))
          have hViable := hBegun.viable_atom (.suffixed (k + 1) (.inr (by omega)) hLarge)
          rw [suffixLexemes_succ] at hViable
          simpa using hViable

/-- What the reader has taken is part of a sentence. -/
theorem viable {p : Progress} (h : p.Reached ls) : Viable ls := by
  have hName : (Lexeme.identifier "nil").describe ∈ atomStart := by decide
  have hClose : (Lexeme.symbol .listClose).describe ∈ [Symbol.listClose.text] :=
    List.mem_singleton_self _
  obtain ⟨levels, place⟩ := p
  cases place with
  | after earlier core k =>
      obtain ⟨ls, inside, rfl, hBegun, hAtom⟩ := h
      exact hBegun.viable_atom hAtom.atom
  | atom earlier => exact (h.viable_inside_atom nofun hName).of_append
  | item before outer => exact (h.viable_inside_atom nofun hName).of_append
  | tail before outer => exact (h.viable_inside_atom nofun hClose).of_append
  | suffix earlier core k opened => exact (h.viable_inside_atom nofun hClose).of_append

/-- After a complete choice inside a bracket, each of its followers goes on. -/
theorem exists_stepBracket (level : Level) (levels : List Level) (s : Schema) {symbol : Symbol}
    (h : symbol ∈ level.bracket.followers) : ∃ p, stepBracket level levels s symbol = some p := by
  obtain ⟨bracket, earlier⟩ := level
  cases bracket <;> simp [Bracket.followers] at h
  · subst h
    exact ⟨_, rfl⟩
  · subst h
    exact ⟨_, rfl⟩
  · subst h
    exact ⟨_, rfl⟩
  · rcases h with rfl | rfl
    · exact ⟨_, rfl⟩
    · exact ⟨_, rfl⟩

/-- Each expected lexeme keeps the way to a sentence open. -/
theorem viable_expected {p : Progress} {l : Lexeme} (h : p.Reached ls)
    (hExpected : l.describe ∈ p.expected) : Viable (ls ++ [l]) := by
  obtain ⟨levels, place⟩ := p
  cases place with
  | after earlier core k =>
      cases levels with
      | nil => cases hExpected
      | cons level levels =>
          obtain ⟨symbol, hFollower, hText⟩ := List.mem_map.mp hExpected
          obtain rfl := eq_symbol_of_describe hText.symm
          obtain ⟨p', hNext⟩ :=
            exists_stepBracket level levels (completed earlier core) hFollower
          obtain ⟨_, hRun, rfl⟩ := (Leads.symbol ⟨earlier, core, k, rfl, rfl⟩ hNext).reads trivial
            [⟨.symbol symbol, .empty 0⟩] rfl
          exact (reached_of_foldlM h hRun).viable
  | _ => exact h.viable_inside_atom nofun hExpected

end Progress.Reached

end TreeSchema.Description
