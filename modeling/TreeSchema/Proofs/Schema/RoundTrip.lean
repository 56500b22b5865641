import TreeSchema.Proofs.Schema.Nesting

/-! Reading back what was written. The written form of a writable schema takes the
reader from one place to the next as long as it is not nested too deep, and stops it
with an error if it is. -/
namespace TreeSchema.Description

open Progress

/-- What the reader does with tokens that have the lexemes `ls`: it goes from `p` to a
place of `goal` if `fits` holds, and stops at one that is nested too deep if not. -/
structure Leads (p : Progress) (ls : List Lexeme) (fits : Prop) (goal : Progress → Prop) :
    Prop where
  reads : fits → ∀ ts : List Token, ts.map (·.lexeme) = ls →
    ∃ p', ts.foldlM step p = .ok p' ∧ goal p'
  stops : ¬ fits → ∀ ts : List Token, ts.map (·.lexeme) = ls →
    ∃ span, ts.foldlM step p = .error (tooDeep span)

namespace Leads

theorem weaken {p : Progress} {ls : List Lexeme} {fits : Prop} {goal goal' : Progress → Prop}
    (h : Leads p ls fits goal) (hGoal : ∀ p', goal p' → goal' p') : Leads p ls fits goal' := by
  constructor
  · intro hFits ts hTokens
    obtain ⟨p', hRun, hReached⟩ := h.reads hFits ts hTokens
    exact ⟨p', hRun, hGoal p' hReached⟩
  · exact h.stops

/-- The first part that does not fit stops the reader. -/
theorem append {p : Progress} {ls ls' : List Lexeme} {fits fits' : Prop}
    {middle goal : Progress → Prop} (hFirst : Leads p ls fits middle)
    (hRest : ∀ p', middle p' → Leads p' ls' fits' goal) :
    Leads p (ls ++ ls') (fits ∧ fits') goal := by
  constructor
  · rintro ⟨hFits, hFits'⟩ ts hTokens
    obtain ⟨before, after, rfl, hBefore, hAfter⟩ := List.map_eq_append_iff.mp hTokens
    obtain ⟨p', hRun, hMiddle⟩ := hFirst.reads hFits before hBefore
    obtain ⟨p'', hRun', hGoal⟩ := (hRest p' hMiddle).reads hFits' after hAfter
    refine ⟨p'', ?_, hGoal⟩
    rw [List.foldlM_append, hRun]
    exact hRun'
  · intro hNot ts hTokens
    obtain ⟨before, after, rfl, hBefore, hAfter⟩ := List.map_eq_append_iff.mp hTokens
    rw [List.foldlM_append]
    by_cases hFits : fits
    · obtain ⟨p', hRun, hMiddle⟩ := hFirst.reads hFits before hBefore
      obtain ⟨span, hStop⟩ :=
        (hRest p' hMiddle).stops (fun hFits' => hNot ⟨hFits, hFits'⟩) after hAfter
      refine ⟨span, ?_⟩
      rw [hRun]
      exact hStop
    · obtain ⟨span, hStop⟩ := hFirst.stops hFits before hBefore
      refine ⟨span, ?_⟩
      rw [hStop]
      rfl

/-- A lexeme that is always read. -/
theorem one {p p' : Progress} {l : Lexeme} (h : ∀ t : Token, t.lexeme = l → p.step t = .ok p') :
    Leads p [l] True (· = p') := by
  constructor
  · rintro - ts hTokens
    obtain ⟨t, rfl, hLexeme⟩ := List.map_eq_singleton_iff.mp hTokens
    refine ⟨p', ?_, rfl⟩
    rw [List.foldlM_cons, h t hLexeme]
    rfl
  · intro hNot
    exact absurd trivial hNot

/-- A bracket that adds a level. -/
theorem bracket {p inside : Progress} {levels : List Level} {l : Lexeme}
    (h : ∀ t : Token, t.lexeme = l → p.step t = enter levels t inside) :
    Leads p [l] (depth levels < maxNesting) (· = inside) := by
  constructor
  · intro hDepth ts hTokens
    obtain ⟨t, rfl, hLexeme⟩ := List.map_eq_singleton_iff.mp hTokens
    refine ⟨inside, ?_, rfl⟩
    rw [List.foldlM_cons, h t hLexeme, enter, if_neg (Nat.not_le_of_lt hDepth)]
    rfl
  · intro hDepth ts hTokens
    obtain ⟨t, rfl, hLexeme⟩ := List.map_eq_singleton_iff.mp hTokens
    refine ⟨t.span, ?_⟩
    rw [List.foldlM_cons, h t hLexeme, enter, if_pos (Nat.le_of_not_lt hDepth)]
    rfl

/-- A list suffix makes the list too deep when it is closed, if at all. -/
theorem foldlM_suffix (levels : List Level) (earlier : List Alternative) (core : Schema)
    (suffixes : Nat) {ts : List Token}
    (hTokens : ts.map (·.lexeme) = [.symbol .listOpen, .symbol .listClose]) :
    ∃ opened, ts.foldlM step ⟨levels, .after earlier core suffixes⟩ =
      if maxNesting < depth levels + (suffixes + 1) then .error (tooDeep opened)
      else .ok ⟨levels, .after earlier (.list core) (suffixes + 1)⟩ := by
  obtain ⟨first, others, rfl, hOpen, hOthers⟩ := List.map_eq_cons_iff.mp hTokens
  obtain ⟨second, rfl, hClose⟩ := List.map_eq_singleton_iff.mp hOthers
  have hFirst : step ⟨levels, .after earlier core suffixes⟩ first =
      .ok ⟨levels, .suffix earlier core suffixes first.span⟩ := by
    rw [step, hOpen]
  have hSecond : step ⟨levels, .suffix earlier core suffixes first.span⟩ second =
      if maxNesting < depth levels + (suffixes + 1) then .error (tooDeep first.span)
      else .ok ⟨levels, .after earlier (.list core) (suffixes + 1)⟩ := by
    rw [step, hClose]
  refine ⟨first.span, ?_⟩
  rw [List.foldlM_cons, hFirst]
  change [second].foldlM step _ = _
  rw [List.foldlM_cons, hSecond]
  split
  · rfl
  · rfl

theorem suffix (levels : List Level) (earlier : List Alternative) (core : Schema)
    (suffixes : Nat) :
    Leads ⟨levels, .after earlier core suffixes⟩ [.symbol .listOpen, .symbol .listClose]
      (depth levels + suffixes < maxNesting)
      (· = ⟨levels, .after earlier (.list core) (suffixes + 1)⟩) := by
  constructor
  · intro hDepth ts hTokens
    obtain ⟨opened, hEnd⟩ := foldlM_suffix levels earlier core suffixes hTokens
    rw [if_neg (by omega)] at hEnd
    exact ⟨_, hEnd, rfl⟩
  · intro hDepth ts hTokens
    obtain ⟨opened, hEnd⟩ := foldlM_suffix levels earlier core suffixes hTokens
    rw [if_pos (by omega)] at hEnd
    exact ⟨opened, hEnd⟩

end Leads

/-- Whether the choice inside the innermost bracket has come to have the alternatives
`chosen`, last first. -/
def Chosen (levels : List Level) (chosen : List Alternative) (p : Progress) : Prop :=
  ∃ earlier core suffixes,
    p = ⟨levels, .after earlier core suffixes⟩ ∧ core.toAlternative :: earlier = chosen

/-- Whether the choice inside the innermost bracket could end here as `inside`. -/
def Complete (levels : List Level) (inside : Schema) (p : Progress) : Prop :=
  ∃ earlier core suffixes,
    p = ⟨levels, .after earlier core suffixes⟩ ∧ completed earlier core = inside

theorem Chosen.complete {levels : List Level} {chosen : List Alternative} {p : Progress}
    (h : Chosen levels chosen p) : Complete levels (.oneOf chosen.reverse) p := by
  obtain ⟨earlier, core, suffixes, rfl, rfl⟩ := h
  exact ⟨earlier, core, suffixes, rfl, rfl⟩

namespace Leads

variable {level : Level} {levels : List Level} {earlier : List Alternative}
  {inside left right : Schema}

/-- A bar asks for one more alternative. -/
theorem bar {chosen : List Alternative} {p : Progress} (h : Chosen levels chosen p) :
    Leads p [.symbol .bar] True (· = ⟨levels, .atom chosen⟩) := by
  obtain ⟨earlier, core, suffixes, rfl, rfl⟩ := h
  apply one
  intro t hLexeme
  simp only [step, hLexeme]

/-- A dot or a closing bracket takes the complete choice before it. -/
theorem symbol {s : Symbol} {p p' : Progress} (hInside : Complete (level :: levels) inside p)
    (hNext : stepBracket level levels inside s = some p') :
    Leads p [.symbol s] True (· = p') := by
  obtain ⟨earlier, core, suffixes, rfl, rfl⟩ := hInside
  apply one
  intro t hLexeme
  cases s with
  | listOpen => cases hNext
  | bar => cases hNext
  | _ => simp only [step, hLexeme, hNext, Option.elim]

/-- A choice in parentheses, from what is inside them. -/
theorem group {ls : List Lexeme} {fits : Prop}
    (h : Leads ⟨⟨.group, earlier⟩ :: levels, .atom []⟩ ls fits
      (Complete (⟨.group, earlier⟩ :: levels) inside)) :
    Leads ⟨levels, .atom earlier⟩ (.symbol .groupOpen :: (ls ++ [.symbol .groupClose]))
      (depth levels < maxNesting ∧ fits) (· = ⟨levels, .after earlier inside 0⟩) := by
  have hOpen : Leads ⟨levels, .atom earlier⟩ [.symbol .groupOpen]
      (depth levels < maxNesting) (· = ⟨⟨.group, earlier⟩ :: levels, .atom []⟩) := by
    apply bracket
    intro t hLexeme
    simp only [step, stepAtom, hLexeme]
  have hClosed := h.append (fun p' hEnd => symbol (s := .groupClose) hEnd rfl)
  rw [and_true] at hClosed
  exact hOpen.append (by rintro p' rfl; exact hClosed)

/-- A pair, from its two sides. -/
theorem tree {ls ls' : List Lexeme} {fits fits' : Prop}
    (hLeft : Leads ⟨⟨.left, earlier⟩ :: levels, .atom []⟩ ls fits
      (Complete (⟨.left, earlier⟩ :: levels) left))
    (hRight : Leads ⟨⟨.right left, earlier⟩ :: levels, .atom []⟩ ls' fits'
      (Complete (⟨.right left, earlier⟩ :: levels) right)) :
    Leads ⟨levels, .atom earlier⟩
      (.symbol .treeOpen :: (ls ++ .symbol .dot :: (ls' ++ [.symbol .treeClose])))
      (depth levels < maxNesting ∧ fits ∧ fits')
      (· = ⟨levels, .after earlier (.pair left right) 0⟩) := by
  have hOpen : Leads ⟨levels, .atom earlier⟩ [.symbol .treeOpen]
      (depth levels < maxNesting) (· = ⟨⟨.left, earlier⟩ :: levels, .atom []⟩) := by
    apply bracket
    intro t hLexeme
    simp only [step, stepAtom, hLexeme]
  have hBefore := hLeft.append (fun p' hEnd => symbol (s := .dot) hEnd rfl)
  have hAfter := hRight.append (fun p' hEnd => symbol (s := .treeClose) hEnd rfl)
  have hInside := hBefore.append (by rintro p' rfl; exact hAfter)
  rw [and_true, and_true, List.append_assoc, List.singleton_append] at hInside
  exact hOpen.append (by rintro p' rfl; exact hInside)

end Leads

end TreeSchema.Description

namespace TreeSchema

open Description Progress

theorem Schema.oneOf_toAlternative {s : Schema} (hPlain : s.isGrouped = false)
    (h : s.Writable) : Schema.oneOf [s.toAlternative] = s := by
  cases s with
  | list item => rfl
  | pair left right => rfl
  | choice alternatives =>
      cases alternatives with
      | nil => exact absurd rfl h.1.nonempty
      | cons first others =>
          cases others with
          | cons second rest => cases hPlain
          | nil =>
              cases first with
              | atom a => rfl
              | schema s => exact absurd (h.1.single (.schema s) rfl) Bool.false_ne_true

theorem Alternative.flatMap_members {alternatives : List Alternative}
    (h : ∀ a ∈ alternatives, a.isChoice = false) :
    alternatives.flatMap Alternative.members = alternatives := by
  induction alternatives with
  | nil => rfl
  | cons first others ih =>
      rw [List.forall_mem_cons] at h
      have hFirst : first.members = [first] := by
        unfold Alternative.members
        split
        · cases h.1
        · rfl
      rw [List.flatMap_cons, hFirst, ih h.2, List.singleton_append]

/-- The alternatives of a choice in normal form make up that choice again. -/
theorem NormalChoice.oneOf {alternatives : List Alternative} (h : NormalChoice alternatives) :
    Schema.oneOf alternatives = .choice alternatives := by
  unfold Schema.oneOf
  rw [Alternative.flatMap_members h.flat]
  split
  · next only => exact absurd (h.single (.schema only) rfl) Bool.false_ne_true
  · rfl

theorem Atom.leads (a : Atom) (levels : List Level) (earlier : List Alternative) :
    Leads ⟨levels, .atom earlier⟩ [a.lexeme] True
      (· = ⟨levels, .after earlier (.choice [.atom a]) 0⟩) := by
  apply Leads.one
  intro t hLexeme
  cases a with
  | named name => simp only [step, stepAtom, hLexeme, Atom.lexeme, Schema.named]
  | number n => simp only [step, stepAtom, hLexeme, Atom.lexeme]

/-- What is not put in parentheses is read alike in both places. -/
theorem Schema.leads_of_atom {s : Schema} (hPlain : s.isGrouped = false) (h : s.Writable)
    (hAtom : ∀ levels earlier, Leads ⟨levels, .atom earlier⟩ s.lexemes (s.Fits (depth levels))
      (· = ⟨levels, .after earlier s s.suffixes⟩)) (levels : List Level) :
    (∀ earlier, Leads ⟨levels, .atom earlier⟩ (inGroup s.isGrouped s.lexemes)
      (s.AtomFits (depth levels)) (· = ⟨levels, .after earlier s s.suffixes⟩)) ∧
    Leads ⟨levels, .atom []⟩ s.lexemes (s.Fits (depth levels)) (Complete levels s) := by
  rw [Schema.AtomFits, hPlain]
  refine ⟨hAtom levels, (hAtom levels []).weaken ?_⟩
  rintro p' rfl
  exact ⟨[], s, s.suffixes, rfl, Schema.oneOf_toAlternative hPlain h⟩

mutual

/-- The reader gets through the written form of a schema, first as an atom, then as
all that stands inside a bracket. -/
theorem Schema.leads : (s : Schema) → s.Writable → (levels : List Level) →
    (∀ earlier, Leads ⟨levels, .atom earlier⟩ (inGroup s.isGrouped s.lexemes)
      (s.AtomFits (depth levels)) (· = ⟨levels, .after earlier s s.suffixes⟩)) ∧
    Leads ⟨levels, .atom []⟩ s.lexemes (s.Fits (depth levels)) (Complete levels s)
  | .choice [], hWritable, _ => absurd rfl hWritable.1.nonempty
  | .choice [.schema s], hWritable, _ =>
      absurd (hWritable.1.single (.schema s) rfl) Bool.false_ne_true
  | .choice [.atom a], hWritable, levels => by
      apply Schema.leads_of_atom rfl hWritable
      intro levels earlier
      rw [Schema.Fits, Alternative.AllFit, Alternative.Fits, Alternative.AllFit, and_true]
      exact Atom.leads a levels earlier
  | .choice (a :: b :: others), hWritable, levels => by
      obtain ⟨hChoice, hAll⟩ := hWritable
      have hWhole (levels : List Level) : Leads ⟨levels, .atom []⟩
          (Schema.choice (a :: b :: others)).lexemes
          (Alternative.AllFit (depth levels) (a :: b :: others))
          (Complete levels (.choice (a :: b :: others))) := by
        have hJoined := Alternative.leads_joined (a :: b :: others) (by simp) hChoice.flat hAll
          levels []
        apply hJoined.weaken
        intro p' hEnd
        have hComplete := hEnd.complete
        rw [List.append_nil, List.reverse_reverse, hChoice.oneOf] at hComplete
        exact hComplete
      refine ⟨fun earlier => ?_, hWhole levels⟩
      have hGroup := (hWhole (⟨.group, earlier⟩ :: levels)).group
      have hDepth : depth (⟨.group, earlier⟩ :: levels) = depth levels + 1 := Nat.add_comm 1 _
      rw [hDepth] at hGroup
      exact hGroup
  | .list item, hWritable, levels => by
      apply Schema.leads_of_atom rfl hWritable
      intro levels earlier
      have hItem := (item.leads hWritable levels).1 earlier
      have hSuffix := Leads.suffix levels earlier item item.suffixes
      exact hItem.append (by rintro p' rfl; exact hSuffix)
  | .pair left right, hWritable, levels => by
      apply Schema.leads_of_atom rfl hWritable
      intro levels earlier
      have hLeft := (left.leads hWritable.1 (⟨.left, earlier⟩ :: levels)).2
      have hRight := (right.leads hWritable.2 (⟨.right left, earlier⟩ :: levels)).2
      have hTree := hLeft.tree hRight
      have hDepth : depth (⟨.left, earlier⟩ :: levels) = depth levels + 1 := Nat.add_comm 1 _
      have hDepth' : depth (⟨.right left, earlier⟩ :: levels) = depth levels + 1 :=
        Nat.add_comm 1 _
      rw [hDepth, hDepth'] at hTree
      exact hTree

theorem Alternative.leads : (a : Alternative) → a.isChoice = false →
    a.Everywhere WritableChoice → (levels : List Level) → (earlier : List Alternative) →
    Leads ⟨levels, .atom earlier⟩ a.lexemes (a.Fits (depth levels)) (Chosen levels (a :: earlier))
  | .atom a, _, _, levels, earlier =>
      (Atom.leads a levels earlier).weaken (fun p' hEnd => ⟨_, _, _, hEnd, rfl⟩)
  | .schema (.choice _), hPlain, _, _, _ => nomatch hPlain
  | .schema (.list item), _, hWritable, levels, earlier => by
      have hList := ((Schema.list item).leads hWritable levels).1 earlier
      exact hList.weaken (fun p' hEnd => ⟨_, _, _, hEnd, rfl⟩)
  | .schema (.pair left right), _, hWritable, levels, earlier => by
      have hPair := ((Schema.pair left right).leads hWritable levels).1 earlier
      exact hPair.weaken (fun p' hEnd => ⟨_, _, _, hEnd, rfl⟩)

theorem Alternative.leads_joined : (as : List Alternative) → as ≠ [] →
    (∀ a ∈ as, a.isChoice = false) → Alternative.AllEverywhere WritableChoice as →
    (levels : List Level) → (before : List Alternative) →
    Leads ⟨levels, .atom before⟩ (Alternative.joinedLexemes as)
      (Alternative.AllFit (depth levels) as) (Chosen levels (as.reverse ++ before))
  | [], hNonempty, _, _, _, _ => absurd rfl hNonempty
  | [only], _, hFlat, hAll, levels, before => by
      have hOnly := only.leads (hFlat only List.mem_cons_self) hAll.1 levels before
      rw [Alternative.joinedLexemes, Alternative.AllFit, Alternative.AllFit, and_true]
      exact hOnly
  | first :: second :: others, _, hFlat, hAll, levels, before => by
      rw [List.forall_mem_cons] at hFlat
      have hFirst := first.leads hFlat.1 hAll.1 levels before
      have hOthers := Alternative.leads_joined (second :: others) (by simp) hFlat.2 hAll.2 levels
        (first :: before)
      have hBar := hFirst.append (fun p' hEnd => Leads.bar hEnd)
      have hChoice := hBar.append (by rintro p' rfl; exact hOthers)
      have hReverse : (first :: second :: others).reverse ++ before =
          (second :: others).reverse ++ first :: before := by
        rw [List.reverse_cons, List.append_assoc, List.singleton_append]
      rw [and_true, List.append_assoc, List.singleton_append] at hChoice
      rw [Alternative.joinedLexemes, hReverse]
      · exact hChoice
      · simp

end

/-- The nesting of a written form is that of the schema. -/
theorem Schema.nestingFits_text {s : Schema} (h : s.Writable) :
    NestingFits s.text.toList ↔ s.Fits 0 := by
  have hNests := (s.nestsFrom h 0 []).2 rfl
  rw [List.append_nil, s.written_lexemes] at hNests
  rw [nestingFits_iff, hNests]
  exact and_iff_left (Nat.zero_le 256)

/-- Without a lexeme the reader would not come to the end of the schema. -/
theorem Schema.lexemes_ne_nil {s : Schema} (h : s.Writable) : s.lexemes ≠ [] := by
  intro hNil
  have hRun := (s.leads h []).2
  rw [hNil] at hRun
  by_cases hFits : s.Fits 0
  · obtain ⟨p, hRead, earlier, core, suffixes, rfl, -⟩ := hRun.reads hFits [] rfl
    cases hRead
  · obtain ⟨span, hStop⟩ := hRun.stops hFits [] rfl
    cases hStop

theorem Schema.ofText_eq_foldlM {s : Schema} (h : s.Writable) :
    Schema.ofText s.text =
      (placed 0 s.lexemes).foldlM step .start >>= finish (endOf (placed 0 s.lexemes)) := by
  have hRead : Schema.ofText s.text = read (placed 0 s.lexemes) := by
    rw [Schema.ofText, Schema.tokens_text h]
    rfl
  rw [hRead]
  cases hLexemes : s.lexemes with
  | nil => exact absurd hLexemes (Schema.lexemes_ne_nil h)
  | cons l ls => rfl

theorem Schema.writable_repeat_list (n : Nat) {s : Schema} (h : s.Writable) :
    (Nat.repeat Schema.list n s).Writable := by
  induction n with
  | zero => exact h
  | succ n ih => exact ih

theorem Schema.suffixes_repeat_list (n : Nat) (s : Schema) :
    (Nat.repeat Schema.list n s).suffixes = s.suffixes + n := by
  induction n with
  | zero => rfl
  | succ n ih => rw [Nat.repeat, Schema.suffixes, ih, Nat.add_assoc]

/-- A writable schema is read back from its written form, unless that is nested too
deep; then this is the error. -/
theorem Schema.ofText_text (s : Schema) (h : s.Writable) :
    (NestingFits s.text.toList → Schema.ofText s.text = .ok s) ∧
    (¬ NestingFits s.text.toList → ∃ span, Schema.ofText s.text = .error (tooDeep span) ∧
      (tooDeep span).message = "Type nesting too deep") := by
  have hRun := (s.leads h []).2
  have hLexemes := map_lexeme_placed 0 s.lexemes
  rw [Schema.nestingFits_text h, Schema.ofText_eq_foldlM h]
  constructor
  · intro hFits
    obtain ⟨p, hRead, earlier, core, suffixes, rfl, hEnd⟩ := hRun.reads hFits _ hLexemes
    change List.foldlM step .start _ = _ at hRead
    rw [hRead, ← hEnd]
    rfl
  · intro hDeep
    obtain ⟨span, hStop⟩ := hRun.stops hDeep _ hLexemes
    change List.foldlM step .start _ = _ at hStop
    refine ⟨span, ?_, rfl⟩
    rw [hStop]
    rfl

/-- The parentheses of `<(int|nil)[].any[]>` are found again; of 257 list suffixes the
last is too deep. -/
theorem Schema.ofText_text_suffixes :
    Schema.ofText (Schema.pair (.list (.choice [.atom (.named "int"), .atom (.named "nil")]))
      (.list .any)).text =
        .ok (.pair (.list (.choice [.atom (.named "int"), .atom (.named "nil")])) (.list .any)) ∧
    ∃ span, Schema.ofText (Nat.repeat Schema.list 257 .any).text = .error (tooDeep span) ∧
      (tooDeep span).message = "Type nesting too deep" := by
  constructor
  · apply (Schema.ofText_text _ (by decide +kernel)).1
    rw [← Schema.written_lexemes]
    decide +kernel
  · have hWritable := Schema.writable_repeat_list 257 (s := .any) (by decide +kernel)
    apply (Schema.ofText_text _ hWritable).2
    rw [Schema.nestingFits_text hWritable]
    rintro ⟨-, hSuffixes⟩
    rw [Schema.suffixes_repeat_list] at hSuffixes
    exact absurd hSuffixes (by decide)

end TreeSchema
