import Mathlib.Data.List.Forall2
import TreeSchema.Proofs.Schema.Sentences
import TreeSchema.Proofs.Token.Joining

/-! Descriptions of fixed lists. Texts that are descriptions of their own may be put between
brackets, with commas between them. What they spell out stays apart, and each of them denotes
at its place in the list what it denotes alone. Only nesting may be too deep then, for each
item stands one level below the item before it. -/
namespace TreeSchema

section

variable {css : List (List Char)} {lss : List (List Lexeme)} {cs : List Char} {ls : List Lexeme}

/-- Texts with commas between them spell out what they do apart, with commas between. -/
theorem Spells.intercalate (h : List.Forall₂ Spells css lss) (hBreak : Breaks cs)
    (hAfter : Spells cs ls) :
    Spells ([','].intercalate css ++ cs) ([Lexeme.symbol .comma].intercalate lss ++ ls) := by
  induction h with
  | nil => exact hAfter
  | @cons first firstLexemes others otherLexemes hFirst hOthers ih =>
      cases hOthers with
      | nil =>
          rw [List.intercalate_singleton, List.intercalate_singleton]
          exact hFirst.append hBreak hAfter
      | cons =>
          rw [List.intercalate_cons_cons, List.intercalate_cons_cons]
          simp only [List.append_assoc]
          exact hFirst.append (breaks_cons _ (by decide) (by decide))
            (.symbol (s := .comma) (by decide) ih)

theorem intercalate_joined {α : Type} (separator first second : List α)
    (others : List (List α)) :
    separator.intercalate (first :: second :: others) =
      separator.intercalate ((first ++ separator ++ second) :: others) := by
  cases others with
  | nil => simp only [List.intercalate_cons_cons, List.intercalate_singleton]
  | cons third others => simp only [List.intercalate_cons_cons, List.append_assoc]

end

namespace Description

/-- Items that are derived at all depths up to `deepest` go on with those before them. -/
theorem Derives.items {limit depth deepest : Nat} {ls : List Lexeme} {lss : List (List Lexeme)}
    {before parts : List Schema} (h : Derives limit depth ls (.items before))
    (hParts : List.Forall₂ (fun ls s => ∀ d ≤ deepest, Derives limit d ls (.choice s)) lss parts)
    (hDepth : depth + before.length + parts.length ≤ deepest) :
    Derives limit depth ([Lexeme.symbol .comma].intercalate (ls :: lss))
      (.items (before ++ parts)) := by
  induction hParts generalizing ls before with
  | nil =>
      rw [List.intercalate_singleton, List.append_nil]
      exact h
  | @cons nextLexemes next _ _ hNext _ ih =>
      rw [List.length_cons] at hDepth
      have hMore := h.nextItem (hNext (depth + before.length) (by omega))
      have hAll := ih hMore (by rw [List.length_append, List.length_singleton]; omega)
      rw [intercalate_joined, List.append_assoc, List.singleton_append]
      rw [List.append_assoc, List.singleton_append] at hAll
      exact hAll

/-- What is spelled out as a description with any limit is read as what it denotes, unless it
is nested too deep. -/
theorem ofText_of_spells {text : String} {ls : List Lexeme} {limit : Nat} {s : Schema}
    (hText : Spells text.toList ls) (h : Derives limit 0 ls (.choice s)) :
    Schema.ofText text = .ok s ∨ ∃ span, Schema.ofText text = .error (Progress.tooDeep span) := by
  obtain ⟨ts, hScan, hLexemes⟩ := hText.tokensFrom 0
  have hTokens : Schema.ofText text = read ts := by
    rw [Schema.ofText, tokens, hScan]
    rfl
  rw [hTokens]
  rcases (h.isRead [] rfl).read_eq h.lexemes_ne_nil hLexemes with hRead | ⟨-, hDeep⟩
  · exact .inl hRead
  · exact .inr hDeep

/-- A text that is not blank spells out a description of what it is read as. -/
theorem exists_spells_of_ofText {text : String} {s : Schema} (h : Schema.ofText text = .ok s)
    (hShown : ∃ c ∈ text.toList, Text.isBlank c = false) :
    ∃ ls, Spells text.toList ls ∧ Derives maxNesting 0 ls (.choice s) := by
  obtain ⟨ts, hScan, hRead⟩ := bind_eq_ok_iff.mp h
  have hSpells := spells_of_tokensFrom hScan
  refine ⟨_, hSpells, ?_⟩
  rcases (read_eq_ok_iff ts s).mp hRead with ⟨rfl, -⟩ | hDerives
  · obtain ⟨c, hMember, hBlank⟩ := hShown
    rw [hSpells.blank_of_nil c hMember] at hBlank
    cases hBlank
  · exact hDerives

theorem exists_spells_of_texts {texts : List String} {parts : List Schema}
    (h : List.Forall₂ (fun text s => Schema.ofText text = .ok s) texts parts)
    (hShown : ∀ text ∈ texts, ∃ c ∈ text.toList, Text.isBlank c = false) :
    ∃ lss, List.Forall₂ Spells (texts.map String.toList) lss ∧
      List.Forall₂ (fun ls s => Derives maxNesting 0 ls (.choice s)) lss parts := by
  induction h with
  | nil => exact ⟨[], .nil, .nil⟩
  | cons hRead _ ih =>
      rw [List.forall_mem_cons] at hShown
      obtain ⟨ls, hSpells, hDerives⟩ := exists_spells_of_ofText hRead hShown.1
      obtain ⟨lss, hOtherSpells, hOtherDerives⟩ := ih hShown.2
      exact ⟨ls :: lss, .cons hSpells hOtherSpells, .cons hDerives hOtherDerives⟩

end Description

section

open Description

variable {texts : List String} {parts : List Schema}
  (hRead : List.Forall₂ (fun text s => Schema.ofText text = .ok s) texts parts)
  (hShown : ∀ text ∈ texts, ∃ c ∈ text.toList, Text.isBlank c = false) (hNonempty : texts ≠ [])

include hRead hShown hNonempty

/-- What the texts spell out, and that it makes up the items of a list with a large limit. -/
theorem exists_items_of_texts : ∃ lss, List.Forall₂ Spells (texts.map String.toList) lss ∧
    Derives (maxNesting + parts.length + 1) 1 ([Lexeme.symbol .comma].intercalate lss)
      (.items parts) := by
  obtain ⟨lss, hSpells, hDerives⟩ := exists_spells_of_texts hRead hShown
  -- With so large a limit there is room for each item at every depth down to that of the last.
  have hDeep : List.Forall₂ (fun ls s => ∀ d ≤ parts.length + 1,
      Derives (maxNesting + parts.length + 1) d ls (.choice s)) lss parts :=
    hDerives.imp fun ls s hAlone d hDepth => hAlone.room (by omega)
  refine ⟨lss, hSpells, ?_⟩
  cases hDeep with
  | nil =>
      cases hRead
      exact absurd rfl hNonempty
  | cons hFirst hOthers =>
      rw [List.length_cons] at hFirst hOthers ⊢
      exact Derives.items (.oneItem (hFirst 1 (by omega))) hOthers
        (by rw [List.length_singleton]; omega)

/-- A bracketed list that ends in one of the two ways. -/
theorem ofText_listed {ending : String} {last : List Lexeme} {s : Schema}
    (hEnd : Spells ending.toList last) (hBreak : Breaks ending.toList)
    (hCore : ∀ ls, Derives (maxNesting + parts.length + 1) 1 ls (.items parts) →
      Derives (maxNesting + parts.length + 1) 0 (.symbol .listOpen :: (ls ++ last)) (.core s)) :
    Schema.ofText ("[" ++ ",".intercalate texts ++ ending) = .ok s ∨
      ∃ span, Schema.ofText ("[" ++ ",".intercalate texts ++ ending) =
        .error (Progress.tooDeep span) := by
  obtain ⟨lss, hSpells, hItems⟩ := exists_items_of_texts hRead hShown hNonempty
  have hText : Spells ("[" ++ ",".intercalate texts ++ ending).toList
      (.symbol .listOpen :: ([Lexeme.symbol .comma].intercalate lss ++ last)) := by
    rw [String.toList_append, String.toList_append, String.toList_intercalate, List.append_assoc]
    exact .symbol (s := .listOpen) (by decide) (.intercalate hSpells hBreak hEnd)
  have hChoice := Derives.only 0 (.inl rfl) (hCore _ hItems)
  rw [suffixLexemes, List.replicate_zero, List.flatten_nil, List.append_nil] at hChoice
  exact ofText_of_spells hText hChoice

theorem ofText_closed :
    Schema.ofText ("[" ++ ",".intercalate texts ++ "]") = .ok (.items parts (.named "nil")) ∨
      ∃ span, Schema.ofText ("[" ++ ",".intercalate texts ++ "]") =
        .error (Progress.tooDeep span) := by
  have hEnd : Spells "]".toList [.symbol .listClose] :=
    .symbol (s := .listClose) (by decide) .nil
  exact ofText_listed hRead hShown hNonempty hEnd (breaks_cons [] (by decide) (by decide))
    fun ls hItems => .closed (by omega) hItems

theorem ofText_opened :
    Schema.ofText ("[" ++ ",".intercalate texts ++ ",...]") = .ok (.items parts .any) ∨
      ∃ span, Schema.ofText ("[" ++ ",".intercalate texts ++ ",...]") =
        .error (Progress.tooDeep span) := by
  have hEnd : Spells ",...]".toList [.symbol .comma, .symbol .dots, .symbol .listClose] :=
    .symbol (s := .comma) (by decide) (.symbol (s := .dots) (by decide)
      (.symbol (s := .listClose) (by decide) .nil))
  exact ofText_listed hRead hShown hNonempty hEnd
    (breaks_cons "...]".toList (by decide) (by decide)) fun ls hItems => .opened (by omega) hItems

end

end TreeSchema
