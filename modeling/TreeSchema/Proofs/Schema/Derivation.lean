import TreeSchema.Proofs.Schema.Grammar
import TreeSchema.Proofs.Schema.RoundTrip

/-! Reading along a derivation. The reader takes each part of a description from one
place to the next, at whatever levels the part stands, and comes to a place where it
holds what the part denotes. Only nesting can stop it on the way, and what is derived
within the nesting limit of the reader does not. -/
namespace TreeSchema.Description

open Progress

theorem read_eq_foldlM {ts : List Token} (h : ts ≠ []) :
    read ts = ts.foldlM step .start >>= finish (endOf ts) := by
  cases ts with
  | nil => exact absurd rfl h
  | cons t ts => rfl

/-- What the reader does with tokens that have the lexemes `ls`: it goes from `p` to a
place of `goal`, or stops at one that is nested too deep. It goes on if `within` holds. -/
def Follows (within : Prop) (p : Progress) (ls : List Lexeme) (goal : Progress → Prop) : Prop :=
  ∀ ts : List Token, ts.map (·.lexeme) = ls →
    (∃ p', ts.foldlM step p = .ok p' ∧ goal p') ∨
      ¬ within ∧ ∃ span, ts.foldlM step p = .error (tooDeep span)

section

variable {within fits : Prop} {levels : List Level} {p : Progress} {ls ls' : List Lexeme}
  {middle goal goal' : Progress → Prop}

theorem Leads.follows (h : Leads p ls fits goal) (hFits : within → fits) :
    Follows within p ls goal := by
  intro ts hTokens
  by_cases hCase : fits
  · exact .inl (h.reads hCase ts hTokens)
  · exact .inr ⟨fun hWithin => hCase (hFits hWithin), h.stops hCase ts hTokens⟩

theorem Leads.always (h : Leads p ls True goal) : Follows within p ls goal :=
  h.follows fun _ => trivial

namespace Follows

theorem nil (p : Progress) : Follows within p [] (· = p) := by
  intro ts hTokens
  rw [List.map_eq_nil_iff.mp hTokens]
  exact .inl ⟨p, rfl, rfl⟩

theorem weaken (h : Follows within p ls goal) (hGoal : ∀ p', goal p' → goal' p') :
    Follows within p ls goal' := by
  intro ts hTokens
  rcases h ts hTokens with ⟨p', hRun, hReached⟩ | hStop
  · exact .inl ⟨p', hRun, hGoal p' hReached⟩
  · exact .inr hStop

theorem trans (hFirst : Follows within p ls middle)
    (hRest : ∀ p', middle p' → Follows within p' ls' goal) :
    Follows within p (ls ++ ls') goal := by
  intro ts hTokens
  obtain ⟨before, after, rfl, hBefore, hAfter⟩ := List.map_eq_append_iff.mp hTokens
  rw [List.foldlM_append]
  rcases hFirst before hBefore with ⟨p', hRun, hMiddle⟩ | ⟨hDeep, span, hStop⟩
  · rw [hRun]
    exact hRest p' hMiddle after hAfter
  · rw [hStop]
    exact .inr ⟨hDeep, span, rfl⟩

theorem suffixes (levels : List Level) (earlier : List Alternative) (core : Schema) (k : Nat)
    (hFits : within → k = 0 ∨ depth levels + k ≤ maxNesting) :
    Follows within ⟨levels, .after earlier core 0⟩ (suffixLexemes k)
      (· = ⟨levels, .after earlier (Nat.repeat .list k core) k⟩) := by
  induction k with
  | zero => exact nil _
  | succ k ih =>
      have hBefore := ih fun hWithin => by have := hFits hWithin; omega
      have hLast : Follows within _ _ _ :=
        (Leads.suffix levels earlier (Nat.repeat .list k core) k).follows
          fun hWithin => by have := hFits hWithin; omega
      rw [suffixLexemes_succ]
      exact hBefore.trans (by rintro p' rfl; exact hLast)

/-- A bracket that adds a level, and what follows inside it. -/
theorem bracket {inside : Progress} {l : Lexeme}
    (hOpen : ∀ t : Token, t.lexeme = l → p.step t = enter levels t inside)
    (hFits : within → depth levels < maxNesting) (h : Follows within inside ls goal) :
    Follows within p (l :: ls) goal := by
  have hBracket : Follows within p [l] (· = inside) := (Leads.bracket hOpen).follows hFits
  exact hBracket.trans (by rintro p' rfl; exact h)

/-- A token that starts an atom starts an item, if that does not stand too deep. -/
theorem stepItem_eq {before : List Schema} {outer : List Alternative} {t : Token}
    (h : stepAtom (⟨.items before, outer⟩ :: levels) [] t ≠
      .error (unexpected ⟨⟨.items before, outer⟩ :: levels, .atom []⟩ t)) :
    stepItem levels before outer t =
      if itemTooDeep levels before then .error (tooDeep t.span)
      else stepAtom (⟨.items before, outer⟩ :: levels) [] t := by
  unfold stepItem
  split
  · next hDots => exact absurd (by simp only [stepAtom, hDots]) h
  · next hClose => exact absurd (by simp only [stepAtom, hClose]) h
  · rfl

theorem item {before : List Schema} {outer : List Alternative}
    (hFits : within → depth levels + before.length + 2 ≤ maxNesting) (hNonempty : ls ≠ [])
    (h : Follows within ⟨⟨.items before, outer⟩ :: levels, .atom []⟩ ls goal) :
    Follows within ⟨levels, .item before outer⟩ ls goal := by
  intro ts hTokens
  cases ts with
  | nil => exact absurd hTokens.symm hNonempty
  | cons t ts =>
      have hAtom : step ⟨⟨.items before, outer⟩ :: levels, .atom []⟩ t =
          stepAtom (⟨.items before, outer⟩ :: levels) [] t := rfl
      have hItem : step ⟨levels, .item before outer⟩ t = stepItem levels before outer t := rfl
      have hRun := h (t :: ts) hTokens
      rw [List.foldlM_cons, hAtom] at hRun
      rw [List.foldlM_cons, hItem, stepItem_eq]
      · split
        · next hDeep =>
            rw [itemTooDeep, decide_eq_true_eq] at hDeep
            exact .inr ⟨fun hWithin => by have := hFits hWithin; omega, t.span, rfl⟩
        · exact hRun
      · intro hStop
        rw [hStop] at hRun
        rcases hRun with ⟨p', hRead, -⟩ | ⟨-, span, hDeep⟩
        · cases hRead
        · cases hDeep

/-- What becomes of the tokens of a description. -/
theorem read_eq {ts : List Token} {s : Schema} (h : Follows within .start ls (Complete [] s))
    (hNonempty : ls ≠ []) (hTokens : ts.map (·.lexeme) = ls) :
    read ts = .ok s ∨ ¬ within ∧ ∃ span, read ts = .error (tooDeep span) := by
  rw [read_eq_foldlM (by rintro rfl; exact hNonempty hTokens.symm)]
  rcases h ts hTokens with ⟨p, hRun, earlier, core, suffixes, rfl, hEnd⟩ | ⟨hDeep, span, hStop⟩
  · rw [hRun, ← hEnd]
    exact .inl rfl
  · rw [hStop]
    exact .inr ⟨hDeep, span, rfl⟩

end Follows

theorem Leads.read_eq {ts : List Token} {s : Schema} (h : Leads .start ls fits (Complete [] s))
    (hNonempty : ls ≠ []) (hTokens : ts.map (·.lexeme) = ls) :
    (fits → read ts = .ok s) ∧ (¬ fits → ∃ span, read ts = .error (tooDeep span)) := by
  constructor
  · intro hFits
    exact ((h.follows id).read_eq hNonempty hTokens).resolve_right fun hDeep => hDeep.1 hFits
  · intro hDeep
    obtain ⟨span, hStop⟩ := h.stops hDeep ts hTokens
    rw [read_eq_foldlM (by rintro rfl; exact hNonempty hTokens.symm), hStop]
    exact ⟨span, rfl⟩

end

/-- Whether the items of a fixed list have come to be `parts`, of which the last could
still go on. -/
def LastItem (levels : List Level) (outer : List Alternative) (parts : List Schema)
    (p : Progress) : Prop :=
  ∃ before last, before.reverse ++ [last] = parts ∧
    Complete (⟨.items before, outer⟩ :: levels) last p

/-- What the reader makes of a part of a description `d` levels deep. -/
def Phrase.IsRead (within : Prop) (d : Nat) (ls : List Lexeme) : Phrase → Prop
  | core s => ∀ levels earlier, depth levels = d →
      Follows within ⟨levels, .atom earlier⟩ ls (· = ⟨levels, .after earlier s 0⟩)
  | atom s => ∀ levels earlier, depth levels = d →
      Follows within ⟨levels, .atom earlier⟩ ls (Chosen levels (s.toAlternative :: earlier))
  | atoms parts => ∀ levels, depth levels = d →
      Follows within ⟨levels, .atom []⟩ ls
        (Chosen levels (parts.map Schema.toAlternative).reverse)
  | choice s => ∀ levels, depth levels = d →
      Follows within ⟨levels, .atom []⟩ ls (Complete levels s)
  | items parts => ∀ levels outer, depth levels + 1 = d →
      (within → d + parts.length ≤ maxNesting) →
      Follows within ⟨levels, .item [] outer⟩ ls (LastItem levels outer parts)

namespace Follows

variable {within : Prop} {levels : List Level} {outer earlier : List Alternative}
  {parts : List Schema} {ls ls' : List Lexeme}

/-- A choice in parentheses, from what is inside them. -/
theorem group {s : Schema} (hFits : within → depth levels < maxNesting)
    (h : (Phrase.choice s).IsRead within (depth levels + 1) ls) :
    Follows within ⟨levels, .atom earlier⟩ (.symbol .groupOpen :: (ls ++ [.symbol .groupClose]))
      (· = ⟨levels, .after earlier s 0⟩) := by
  have hInside := h (⟨.group, earlier⟩ :: levels) (Nat.add_comm 1 _)
  have hClosed := hInside.trans fun p' hEnd =>
    (Leads.symbol (s := .groupClose) hEnd rfl).always
  exact bracket (fun t hLexeme => by simp only [step, stepAtom, hLexeme]) hFits hClosed

/-- A pair, from its two sides. -/
theorem pair {left right : Schema} (hFits : within → depth levels < maxNesting)
    (hLeft : (Phrase.choice left).IsRead within (depth levels + 1) ls)
    (hRight : (Phrase.choice right).IsRead within (depth levels + 1) ls') :
    Follows within ⟨levels, .atom earlier⟩
      (.symbol .treeOpen :: (ls ++ .symbol .dot :: (ls' ++ [.symbol .treeClose])))
      (· = ⟨levels, .after earlier (.pair left right) 0⟩) := by
  have hFirst := hLeft (⟨.left, earlier⟩ :: levels) (Nat.add_comm 1 _)
  have hSecond := hRight (⟨.right left, earlier⟩ :: levels) (Nat.add_comm 1 _)
  have hAfter := hSecond.trans fun p' hEnd => (Leads.symbol (s := .treeClose) hEnd rfl).always
  have hBefore := hFirst.trans fun p' hEnd => (Leads.symbol (s := .dot) hEnd rfl).always
  have hSides := hBefore.trans (by rintro p' rfl; exact hAfter)
  rw [List.append_assoc, List.singleton_append] at hSides
  exact bracket (fun t hLexeme => by simp only [step, stepAtom, hLexeme]) hFits hSides

/-- The bracket of a fixed list, before its first item. -/
theorem listOpen {goal : Progress → Prop} (hFits : within → depth levels < maxNesting)
    (h : Follows within ⟨levels, .item [] outer⟩ ls goal) :
    Follows within ⟨levels, .atom outer⟩ (.symbol .listOpen :: ls) goal :=
  bracket (fun t hLexeme => by simp only [step, stepAtom, hLexeme]) hFits h

/-- An item of a fixed list: the first one, or one after a comma. -/
theorem lastItem (outer : List Alternative) (parts : List Schema) {d : Nat} {s : Schema}
    (hDepth : depth levels + 1 = d)
    (hFits : within → d + (parts.length + 1) ≤ maxNesting) (hNonempty : ls ≠ [])
    (h : (Phrase.choice s).IsRead within (d + parts.length) ls) :
    Follows within ⟨levels, .item parts.reverse outer⟩ ls
      (LastItem levels outer (parts ++ [s])) := by
  have hInside : depth (⟨.items parts.reverse, outer⟩ :: levels) = d + parts.length := by
    change parts.reverse.length + 1 + depth levels = _
    rw [List.length_reverse]
    omega
  have hItem := (h _ hInside).item
    (fun hWithin => by have := hFits hWithin; rw [List.length_reverse]; omega) hNonempty
  exact hItem.weaken fun p' hEnd => ⟨parts.reverse, s, by rw [List.reverse_reverse], hEnd⟩

theorem comma {p : Progress} (h : LastItem levels outer parts p) :
    Follows within p [.symbol .comma] (· = ⟨levels, .item parts.reverse outer⟩) := by
  obtain ⟨before, last, rfl, hEnd⟩ := h
  exact (Leads.symbol hEnd (by simp [stepBracket])).always

theorem listClose {p : Progress} (h : LastItem levels outer parts p) :
    Follows within p [.symbol .listClose]
      (· = ⟨levels, .after outer (.items parts (.named "nil")) 0⟩) := by
  obtain ⟨before, last, rfl, hEnd⟩ := h
  exact (Leads.symbol hEnd (by simp [stepBracket])).always

/-- The dots and the bracket at the end of a fixed list that is open to any tail. -/
theorem dots (parts : List Schema) :
    Follows within ⟨levels, .item parts.reverse outer⟩ [.symbol .dots, .symbol .listClose]
      (· = ⟨levels, .after outer (.items parts .any) 0⟩) := by
  have hDots : Follows within ⟨levels, .item parts.reverse outer⟩ [.symbol .dots]
      (· = ⟨levels, .tail parts.reverse outer⟩) := by
    apply (Leads.one _).always
    intro t hLexeme
    simp only [step, stepItem, hLexeme]
  have hClose : Follows within ⟨levels, .tail parts.reverse outer⟩ [.symbol .listClose]
      (· = ⟨levels, .after outer (.items parts .any) 0⟩) := by
    apply (Leads.one _).always
    intro t hLexeme
    simp only [step, hLexeme, List.reverse_reverse]
  exact hDots.trans (by rintro p' rfl; exact hClose)

end Follows

/-- The reader follows the grammar with any limit. Nesting may stop it only if that limit
is beyond its own. -/
theorem Derives.isRead {limit d : Nat} {ls : List Lexeme} {phrase : Phrase}
    (h : Derives limit d ls phrase) : phrase.IsRead (limit ≤ maxNesting) d ls := by
  induction h with
  | name name =>
      intro levels earlier _
      exact (Atom.leads (.named name) levels earlier).always
  | number n =>
      intro levels earlier _
      exact (Atom.leads (.number n) levels earlier).always
  | group fits _ ih =>
      rintro levels earlier rfl
      exact Follows.group (fun hWithin => by omega) ih
  | pair fits _ _ ihFirst ihSecond =>
      rintro levels earlier rfl
      exact Follows.pair (fun hWithin => by omega) ihFirst ihSecond
  | none fits =>
      rintro levels earlier rfl
      apply Follows.listOpen (fun hWithin => by omega)
      apply (Leads.one _).always
      intro t hLexeme
      simp only [step, stepItem, hLexeme]
  | anything fits =>
      rintro levels earlier rfl
      exact Follows.listOpen (fun hWithin => by omega) (Follows.dots [])
  | closed fits _ ih =>
      rintro levels earlier rfl
      have hItems := ih levels earlier rfl fun hWithin => by omega
      exact Follows.listOpen (fun hWithin => by omega)
        (hItems.trans fun p' hEnd => Follows.listClose hEnd)
  | opened fits _ ih =>
      rintro levels earlier rfl
      have hItems := ih levels earlier rfl fun hWithin => by omega
      have hComma := hItems.trans fun p' hEnd => Follows.comma hEnd
      have hDots := hComma.trans (by rintro p' rfl; exact Follows.dots _)
      rw [List.append_assoc] at hDots
      exact Follows.listOpen (fun hWithin => by omega) hDots
  | @suffixed _ _ s k fits _ ih =>
      rintro levels earlier rfl
      have hSuffixes := Follows.suffixes levels earlier s k
        fun hWithin : limit ≤ maxNesting => by omega
      have hAtom := (ih levels earlier rfl).trans (by rintro p' rfl; exact hSuffixes)
      exact hAtom.weaken (by rintro p' rfl; exact ⟨_, _, _, rfl, rfl⟩)
  | oneAtom _ ih =>
      intro levels hDepth
      exact ih levels [] hDepth
  | nextAtom _ _ ihBefore ihNext =>
      intro levels hDepth
      have hBar := (ihBefore levels hDepth).trans fun p' hEnd => (Leads.bar hEnd).always
      have hAtoms := hBar.trans (by rintro p' rfl; exact ihNext levels _ hDepth)
      rw [List.append_assoc, List.singleton_append] at hAtoms
      rw [List.map_append, List.reverse_append]
      exact hAtoms
  | choice all ih =>
      intro levels hDepth
      apply (ih levels hDepth).weaken
      intro p' hEnd
      have hComplete := hEnd.complete
      rw [List.reverse_reverse, all.oneOf_eq] at hComplete
      exact hComplete
  | oneItem only ih =>
      intro levels outer hDepth hFits
      exact Follows.lastItem outer [] hDepth hFits only.lexemes_ne_nil ih
  | nextItem _ next ihBefore ihNext =>
      intro levels outer hDepth hFits
      rw [List.length_append, List.length_singleton] at hFits
      have hItems := ihBefore levels outer hDepth fun hWithin => by have := hFits hWithin; omega
      have hComma := hItems.trans fun p' hEnd => Follows.comma hEnd
      have hNext := Follows.lastItem outer _ hDepth hFits next.lexemes_ne_nil ihNext
      have hAll := hComma.trans (by rintro p' rfl; exact hNext)
      rw [List.append_assoc, List.singleton_append] at hAll
      exact hAll

end TreeSchema.Description
