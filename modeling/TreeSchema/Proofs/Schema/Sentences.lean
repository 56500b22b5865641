import TreeSchema.Proofs.Schema.Derivation

/-! The reader accepts exactly the sentences of the grammar, and returns what they denote.
The lexemes that have brought it to a place are made up of whole parts of a description
between the brackets that are still open; each step keeps it so, and at the end no bracket
is open. -/
namespace TreeSchema.Description

open Progress

/-- Parts of a description so far, all of them followed by `s`. -/
inductive Followed (s : Symbol) (phrase : List Schema → Phrase) (d : Nat) :
    List Lexeme → List Schema → Prop where
  | none : Followed s phrase d [] []
  | some {ls : List Lexeme} {parts : List Schema}
      (before : Derives maxNesting d ls (phrase parts)) :
      Followed s phrase d (ls ++ [.symbol s]) parts

theorem Followed.atoms {limit d : Nat} {ls ls' : List Lexeme} {parts : List Schema}
    {s : Schema} (h : Followed .bar .atoms d ls parts) (hLimit : maxNesting ≤ limit)
    (next : Derives limit d ls' (.atom s)) :
    Derives limit d (ls ++ ls') (.atoms (parts ++ [s])) := by
  cases h with
  | none => exact .oneAtom next
  | some before =>
      rw [List.append_assoc]
      exact .nextAtom (before.mono hLimit) next

theorem Followed.items {limit d : Nat} {ls ls' : List Lexeme} {parts : List Schema}
    {s : Schema} (h : Followed .comma .items d ls parts) (hLimit : maxNesting ≤ limit)
    (next : Derives limit (d + parts.length) ls' (.choice s)) :
    Derives limit d (ls ++ ls') (.items (parts ++ [s])) := by
  cases h with
  | none => exact .oneItem next
  | some before =>
      rw [List.append_assoc]
      exact .nextItem (before.mono hLimit) next

theorem Followed.eq_nil {d : Nat} {ls : List Lexeme} (h : Followed .comma .items d ls []) :
    ls = [] := by
  cases h with
  | none => rfl
  | some before => exact absurd rfl before.normal.1

/-- The dots at the end of a fixed list, after its items if there are any. -/
theorem Followed.opened {d : Nat} {ls : List Lexeme} {parts : List Schema}
    (h : Followed .comma .items (d + 1) ls parts) (fits : d + 1 + parts.length ≤ maxNesting) :
    Derives maxNesting d
      (.symbol .listOpen :: (ls ++ [.symbol .dots, .symbol .listClose]))
      (.core (.items parts .any)) := by
  cases h with
  | none => exact .anything fits
  | some before =>
      rw [List.append_assoc]
      exact .opened fits before

/-- What stands between an opening bracket at depth `d` and the place of the reader inside. -/
def Bracket.Opens (d : Nat) (ls : List Lexeme) : Bracket → Prop
  | group => ls = [.symbol .groupOpen] ∧ d < maxNesting
  | left => ls = [.symbol .treeOpen] ∧ d < maxNesting
  | right s => ∃ inside, ls = .symbol .treeOpen :: (inside ++ [.symbol .dot]) ∧
      d < maxNesting ∧ Derives maxNesting (d + 1) inside (.choice s)
  | items before => ∃ inside, ls = .symbol .listOpen :: inside ∧
      d + 1 + (before.length + 1) ≤ maxNesting ∧
      Followed .comma .items (d + 1) inside before.reverse

/-- The lexemes that open some levels and make up what stands before each bracket. -/
inductive Opened : List Level → List Lexeme → Prop where
  | nil : Opened [] []
  | cons {levels : List Level} {bracket : Bracket} {ls before inside : List Lexeme}
      {parts : List Schema} (outer : Opened levels ls)
      (earlier : Followed .bar .atoms (depth levels) before parts)
      (opens : bracket.Opens (depth levels) inside) :
      Opened (⟨bracket, (parts.map Schema.toAlternative).reverse⟩ :: levels)
        (ls ++ before ++ inside)

/-- The lexemes that bring the reader to the start of an atom inside `levels`, after some
alternatives of the same choice. -/
inductive Begun (levels : List Level) : List Alternative → List Lexeme → Prop where
  | mk {ls before : List Lexeme} {parts : List Schema} (outer : Opened levels ls)
      (earlier : Followed .bar .atoms (depth levels) before parts) :
      Begun levels (parts.map Schema.toAlternative).reverse (ls ++ before)

/-- A core at depth `d` and `k` suffixes after it, which are already part of the schema. -/
inductive Suffixed (d : Nat) : List Lexeme → Schema → Nat → Prop where
  | mk {ls : List Lexeme} {s : Schema} (k : Nat) (fits : k = 0 ∨ d + k ≤ maxNesting)
      (core : Derives maxNesting d ls (.core s)) :
      Suffixed d (ls ++ suffixLexemes k) (Nat.repeat .list k s) k

/-- What the lexemes before a place of the reader are made of. -/
def Progress.Reached (ls : List Lexeme) : Progress → Prop
  | ⟨levels, .atom earlier⟩ => Begun levels earlier ls
  | ⟨levels, .item before outer⟩ => ∃ ls' inside, ls = ls' ++ .symbol .listOpen :: inside ∧
      Begun levels outer ls' ∧ depth levels + 1 + before.length ≤ maxNesting ∧
      Followed .comma .items (depth levels + 1) inside before.reverse
  | ⟨levels, .tail before outer⟩ => ∃ ls' inside,
      ls = ls' ++ .symbol .listOpen :: (inside ++ [.symbol .dots]) ∧
      Begun levels outer ls' ∧ depth levels + 1 + before.length ≤ maxNesting ∧
      Followed .comma .items (depth levels + 1) inside before.reverse
  | ⟨levels, .after earlier core k⟩ => ∃ ls' inside, ls = ls' ++ inside ∧
      Begun levels earlier ls' ∧ Suffixed (depth levels) inside core k
  | ⟨levels, .suffix earlier core k _⟩ => ∃ ls' inside,
      ls = ls' ++ (inside ++ [.symbol .listOpen]) ∧
      Begun levels earlier ls' ∧ Suffixed (depth levels) inside core k

theorem Suffixed.atom {d k : Nat} {ls : List Lexeme} {core : Schema}
    (h : Suffixed d ls core k) : Derives maxNesting d ls (.atom core) := by
  cases h with
  | mk k fits core => exact .suffixed k fits core

theorem Suffixed.succ {d k : Nat} {ls : List Lexeme} {core : Schema}
    (h : Suffixed d ls core k) (fits : d + (k + 1) ≤ maxNesting) :
    Suffixed d (ls ++ [.symbol .listOpen, .symbol .listClose]) (.list core) (k + 1) := by
  cases h with
  | mk k _ core =>
      rw [List.append_assoc, ← suffixLexemes_succ]
      exact .mk (k + 1) (.inr fits) core

namespace Begun

variable {levels : List Level} {earlier : List Alternative} {ls inside : List Lexeme}

theorem start : Begun [] [] [] :=
  .mk .nil .none

/-- An atom that is complete but for its suffixes. -/
theorem core {s : Schema} (h : Begun levels earlier ls)
    (core : Derives maxNesting (depth levels) inside (.core s)) :
    Progress.Reached (ls ++ inside) ⟨levels, .after earlier s 0⟩ := by
  have hNone := Suffixed.mk 0 (.inl rfl) core
  rw [suffixLexemes, List.replicate_zero, List.flatten_nil, List.append_nil] at hNone
  exact ⟨ls, inside, rfl, h, hNone⟩

theorem bracket (bracket : Bracket) (h : Begun levels earlier ls)
    (opens : bracket.Opens (depth levels) inside) :
    Begun (⟨bracket, earlier⟩ :: levels) [] (ls ++ inside) := by
  cases h with
  | mk outer before =>
      have hInside := Begun.mk (.cons outer before opens) .none
      rw [List.append_nil] at hInside
      exact hInside

/-- After an atom, the choice it ends could be complete. -/
theorem completed {core : Schema} (h : Begun levels earlier ls)
    (atom : Derives maxNesting (depth levels) inside (.atom core)) :
    ∃ opening choice, ls ++ inside = opening ++ choice ∧ Opened levels opening ∧
      Derives maxNesting (depth levels) choice (.choice (completed earlier core)) := by
  cases h with
  | @mk opening before parts outer earlier =>
      have hAtoms := earlier.atoms (Nat.le_refl _) atom
      refine ⟨opening, before ++ inside, List.append_assoc _ _ _, outer, ?_⟩
      have hCompleted : Progress.completed (parts.map Schema.toAlternative).reverse core =
          Schema.oneOf ((parts ++ [core]).map Schema.toAlternative) := by
        rw [Progress.completed, List.reverse_cons, List.reverse_reverse, List.map_append]
        rfl
      rw [hCompleted, hAtoms.oneOf_eq]
      exact .choice hAtoms

theorem bar {core : Schema} (h : Begun levels earlier ls)
    (atom : Derives maxNesting (depth levels) inside (.atom core)) :
    Begun levels (core.toAlternative :: earlier) (ls ++ inside ++ [.symbol .bar]) := by
  cases h with
  | @mk opening before parts outer earlier =>
      have hAtoms := Begun.mk outer (.some (earlier.atoms (Nat.le_refl _) atom))
      rw [List.map_append, List.reverse_append, ← List.append_assoc, ← List.append_assoc] at hAtoms
      exact hAtoms

/-- A token where an atom may start. -/
theorem stepAtom {t : Token} {p : Progress} (h : Begun levels earlier ls)
    (hStep : stepAtom levels earlier t = .ok p) : p.Reached (ls ++ [t.lexeme]) := by
  unfold Progress.stepAtom enter at hStep
  split at hStep
  · next name hName =>
      cases hStep
      rw [hName]
      exact h.core (.name name)
  · next n hNumber =>
      cases hStep
      rw [hNumber]
      exact h.core (.number n)
  · next hOpen =>
      rw [hOpen]
      split at hStep
      · cases hStep
      · next hDepth =>
          cases hStep
          exact h.bracket .group ⟨rfl, Nat.lt_of_not_le hDepth⟩
  · next hOpen =>
      rw [hOpen]
      split at hStep
      · cases hStep
      · next hDepth =>
          cases hStep
          exact h.bracket .left ⟨rfl, Nat.lt_of_not_le hDepth⟩
  · next hOpen =>
      rw [hOpen]
      split at hStep
      · cases hStep
      · next hDepth =>
          cases hStep
          exact ⟨ls, [], rfl, h, by rw [List.length_nil]; omega, .none⟩
  · cases hStep

/-- A token where an item of a fixed list may start. -/
theorem stepItem {before : List Schema} {t : Token} {p : Progress}
    (h : Progress.Reached ls ⟨levels, .item before earlier⟩)
    (hStep : stepItem levels before earlier t = .ok p) : p.Reached (ls ++ [t.lexeme]) := by
  obtain ⟨ls, inside, rfl, hBegun, hFits, hItems⟩ := h
  rw [List.append_assoc, List.cons_append]
  unfold Progress.stepItem at hStep
  split at hStep
  · next hDots =>
      cases hStep
      rw [hDots]
      exact ⟨ls, inside, rfl, hBegun, hFits, hItems⟩
  · next hClose =>
      cases hStep
      rw [hClose, hItems.eq_nil]
      exact hBegun.core (.none (by omega))
  · rw [itemTooDeep] at hStep
    split at hStep
    · cases hStep
    · next hDeep =>
        rw [decide_eq_true_eq] at hDeep
        have hInside := hBegun.bracket (.items _) ⟨inside, rfl, by omega, hItems⟩
        have hAtom := hInside.stepAtom hStep
        rw [List.append_assoc, List.cons_append] at hAtom
        exact hAtom

end Begun

/-- The items of a fixed list, when one more is complete. -/
theorem opens_items {levels : List Level} {earlier : List Alternative}
    {before : List Schema} {first inside : List Lexeme} {s : Schema}
    (h : (Bracket.items before).Opens (depth levels) first)
    (choice : Derives maxNesting (depth (⟨.items before, earlier⟩ :: levels)) inside (.choice s)) :
    ∃ ls, first ++ inside = .symbol .listOpen :: ls ∧
      depth levels + 1 + (s :: before).length ≤ maxNesting ∧
      Derives maxNesting (depth levels + 1) ls (.items (s :: before).reverse) := by
  obtain ⟨ls, rfl, hFits, hItems⟩ := h
  have hDepth : depth (⟨.items before, earlier⟩ :: levels) =
      depth levels + 1 + before.reverse.length := by
    change before.length + 1 + depth levels = _
    rw [List.length_reverse]
    omega
  rw [hDepth] at choice
  refine ⟨ls ++ inside, rfl, hFits, ?_⟩
  rw [List.reverse_cons]
  exact hItems.items (Nat.le_refl _) choice

/-- A symbol after a complete choice inside a bracket. -/
theorem Opened.stepBracket {level : Level} {levels : List Level} {ls inside : List Lexeme}
    {s : Schema} {symbol : Symbol} {p : Progress} (h : Opened (level :: levels) ls)
    (choice : Derives maxNesting (depth (level :: levels)) inside (.choice s))
    (hStep : stepBracket level levels s symbol = some p) :
    p.Reached (ls ++ (inside ++ [.symbol symbol])) := by
  cases h with
  | @cons _ bracket opening before first parts outer earlier opens =>
      have hBegun := Begun.mk outer earlier
      have hInside (hOne : bracket.depth = 1) :
          Derives maxNesting (depth levels + 1) inside (.choice s) := by
        rw [← hOne, Nat.add_comm]
        exact choice
      rw [List.append_assoc]
      unfold Progress.stepBracket at hStep
      -- A closing bracket makes a core of what it closes; a dot or comma opens the next part.
      split at hStep
      · split at hStep
        · next hBracket =>
            cases hStep
            obtain rfl : bracket = .group := hBracket
            obtain ⟨rfl, hDepth⟩ := opens
            exact hBegun.core (.group hDepth (hInside rfl))
        · cases hStep
      · split at hStep
        · next hBracket =>
            cases hStep
            obtain rfl : bracket = .left := hBracket
            obtain ⟨rfl, hDepth⟩ := opens
            exact hBegun.bracket (.right s) ⟨inside, rfl, hDepth, hInside rfl⟩
        · cases hStep
      · split at hStep
        · next left hBracket =>
            cases hStep
            obtain rfl : bracket = .right left := hBracket
            obtain ⟨side, rfl, hDepth, hLeft⟩ := opens
            have hCore := hBegun.core (.pair hDepth hLeft (hInside rfl))
            rw [List.cons_append, List.append_assoc side]
            exact hCore
        · cases hStep
      · split at hStep
        · next items hBracket =>
            cases hStep
            obtain rfl : bracket = .items items := hBracket
            obtain ⟨ls, hLexemes, hFits, hItems⟩ := opens_items opens choice
            rw [← List.append_assoc first, hLexemes, List.cons_append]
            exact ⟨_, _, rfl, hBegun, hFits, .some hItems⟩
        · cases hStep
      · split at hStep
        · next items hBracket =>
            cases hStep
            obtain rfl : bracket = .items items := hBracket
            obtain ⟨ls, hLexemes, hFits, hItems⟩ := opens_items opens choice
            rw [← List.append_assoc first, hLexemes]
            rw [← List.length_reverse] at hFits
            exact hBegun.core (.closed hFits hItems)
        · cases hStep
      · cases hStep

/-- Each token that the reader takes goes on with what has been read. -/
theorem Progress.Reached.step {p p' : Progress} {ls : List Lexeme} {t : Token}
    (h : p.Reached ls) (hStep : p.step t = .ok p') : p'.Reached (ls ++ [t.lexeme]) := by
  obtain ⟨levels, place⟩ := p
  unfold Progress.step at hStep
  -- One case for each kind of place and token, in the order in which the reader tries them.
  split at hStep
  · next earlier hPlace =>
      obtain rfl : place = .atom earlier := hPlace
      exact Begun.stepAtom h hStep
  · next before outer hPlace =>
      obtain rfl : place = .item before outer := hPlace
      exact Begun.stepItem h hStep
  · next before outer hPlace hClose =>
      obtain rfl : place = .tail before outer := hPlace
      obtain ⟨ls, inside, rfl, hBegun, hFits, hItems⟩ := h
      cases hStep
      rw [← List.length_reverse] at hFits
      rw [hClose, List.append_assoc, List.cons_append, List.append_assoc]
      exact hBegun.core (hItems.opened hFits)
  · next earlier core k opened hPlace hClose =>
      obtain rfl : place = .suffix earlier core k opened := hPlace
      obtain ⟨ls, inside, rfl, hBegun, hAtom⟩ := h
      split at hStep
      · cases hStep
      · next hFits =>
          cases hStep
          rw [hClose, List.append_assoc, List.append_assoc]
          exact ⟨ls, _, rfl, hBegun, hAtom.succ (Nat.le_of_not_lt hFits)⟩
  · next earlier core k hPlace hOpen =>
      obtain rfl : place = .after earlier core k := hPlace
      obtain ⟨ls, inside, rfl, hBegun, hAtom⟩ := h
      cases hStep
      rw [hOpen, List.append_assoc]
      exact ⟨ls, inside, rfl, hBegun, hAtom⟩
  · next earlier core k hPlace hBar =>
      obtain rfl : place = .after earlier core k := hPlace
      obtain ⟨ls, inside, rfl, hBegun, hAtom⟩ := h
      cases hStep
      rw [hBar]
      exact hBegun.bar hAtom.atom
  · next earlier core k symbol _ _ hPlace hSymbol =>
      obtain rfl : place = .after earlier core k := hPlace
      obtain ⟨ls, inside, rfl, hBegun, hAtom⟩ := h
      obtain ⟨opening, choice, hLexemes, hOpened, hChoice⟩ := hBegun.completed hAtom.atom
      rw [hSymbol, hLexemes, List.append_assoc]
      split at hStep
      · next level outer hLevels =>
          obtain rfl : levels = level :: outer := hLevels
          cases hBracket : stepBracket level outer (Progress.completed earlier core) symbol with
          | none =>
              rw [hBracket] at hStep
              cases hStep
          | some next =>
              rw [hBracket] at hStep
              cases hStep
              exact hOpened.stepBracket hChoice hBracket
      · cases hStep
  · cases hStep

/-- The lexemes of all tokens that the reader has taken make up its place. -/
theorem Progress.reached_of_foldlM {p p' : Progress} {ls : List Lexeme} {ts : List Token}
    (h : p.Reached ls) (hRun : ts.foldlM step p = .ok p') :
    p'.Reached (ls ++ ts.map (·.lexeme)) := by
  have hStep (p : Progress) (taken : List Token) (t : Token) (next : Progress)
      (h : p.Reached (ls ++ taken.map (·.lexeme))) (hNext : p.step t = .ok next) :
      next.Reached (ls ++ (taken ++ [t]).map (·.lexeme)) := by
    rw [List.map_append, ← List.append_assoc]
    exact h.step hNext
  have hStart : p.Reached (ls ++ ([] : List Token).map (·.lexeme)) := by simpa using h
  exact invariant_of_foldlM hStep hStart hRun

/-- At the end no bracket is open, so all that was read is one choice. -/
theorem Progress.Reached.finish {p : Progress} {ls : List Lexeme} {size : Nat} {s : Schema}
    (h : p.Reached ls) (hEnd : p.finish size = .ok s) : Derives maxNesting 0 ls (.choice s) := by
  unfold Progress.finish at hEnd
  split at hEnd
  · next earlier core k =>
      cases hEnd
      obtain ⟨ls, inside, rfl, hBegun, hAtom⟩ := h
      obtain ⟨opening, choice, hLexemes, hOpened, hChoice⟩ := hBegun.completed hAtom.atom
      cases hOpened
      rw [hLexemes]
      exact hChoice
  · split at hEnd <;> cases hEnd
  · cases hEnd

theorem derives_of_read {t : Token} {ts : List Token} {s : Schema}
    (h : read (t :: ts) = .ok s) : Derives maxNesting 0 ((t :: ts).map (·.lexeme)) (.choice s) := by
  change (t :: ts).foldlM step .start >>= finish (endOf (t :: ts)) = .ok s at h
  obtain ⟨p, hRun, hEnd⟩ := bind_eq_ok_iff.mp h
  have hStart : Progress.Reached [] .start := Begun.start
  exact (reached_of_foldlM hStart hRun).finish hEnd

theorem Derives.read_eq_ok {ts : List Token} {s : Schema}
    (h : Derives maxNesting 0 (ts.map (·.lexeme)) (.choice s)) : read ts = .ok s :=
  ((h.isRead [] rfl).read_eq h.lexemes_ne_nil rfl).resolve_right fun hDeep =>
    hDeep.1 (Nat.le_refl maxNesting)

/-- The reader accepts the sentences of the grammar with the nesting limit, and nothing
else but no tokens at all. It returns the schema that the sentence denotes, which is thus
unique. Where the tokens stand and what their names are does not matter. -/
theorem read_eq_ok_iff (ts : List Token) (s : Schema) :
    read ts = .ok s ↔
      (ts = [] ∧ s = .any) ∨ Derives maxNesting 0 (ts.map (·.lexeme)) (.choice s) := by
  constructor
  · intro h
    cases ts with
    | nil =>
        cases h
        exact .inl ⟨rfl, rfl⟩
    | cons t ts => exact .inr (derives_of_read h)
  · rintro (⟨rfl, rfl⟩ | h)
    · rfl
    · exact h.read_eq_ok

end TreeSchema.Description
