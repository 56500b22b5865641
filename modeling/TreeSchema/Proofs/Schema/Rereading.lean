import TreeSchema.Proofs.Schema.Sentences

/-! Reading what a description was written as after it has been read. Its names are known
to the scanner and its brackets fit again, but runs of list suffixes may have grown: the
parentheses around a list are not written, so suffixes inside and after them come to stand
in one run. -/
namespace TreeSchema

mutual

/-- Whether each run of list suffixes of the written form stays within the limit, together
with the brackets around it and `depth` more. -/
def Schema.RunsFit (depth : Nat) : Schema → Prop
  | .choice alternatives => Alternative.AllRunsFit depth alternatives
  | .list item =>
      item.RunsFit (if item.isGrouped then depth + 1 else depth) ∧
        depth + item.suffixes < Description.maxNesting
  | .pair left right => left.RunsFit (depth + 1) ∧ right.RunsFit (depth + 1)

def Alternative.RunsFit (depth : Nat) : Alternative → Prop
  | .atom _ => True
  | .schema s => s.RunsFit depth

def Alternative.AllRunsFit (depth : Nat) : List Alternative → Prop
  | [] => True
  | a :: as => a.RunsFit depth ∧ Alternative.AllRunsFit depth as

end

mutual

theorem Schema.Fits.runsFit {depth : Nat} : {s : Schema} → s.Fits depth → s.RunsFit depth
  | .choice _, h => Alternative.AllFit.allRunsFit h
  | .list item, h => by
      obtain ⟨hItem, hRun⟩ := h
      refine ⟨?_, hRun⟩
      split
      · next hGrouped =>
          rw [if_pos hGrouped] at hItem
          exact hItem.2.runsFit
      · next hPlain =>
          rw [if_neg hPlain] at hItem
          exact hItem.runsFit
  | .pair _ _, ⟨_, hLeft, hRight⟩ => ⟨hLeft.runsFit, hRight.runsFit⟩

theorem Alternative.Fits.runsFit {depth : Nat} :
    {a : Alternative} → a.Fits depth → a.RunsFit depth
  | .atom _, _ => trivial
  | .schema _, h => Schema.Fits.runsFit h

theorem Alternative.AllFit.allRunsFit {depth : Nat} :
    {as : List Alternative} → Alternative.AllFit depth as → Alternative.AllRunsFit depth as
  | [], _ => trivial
  | _ :: _, ⟨hFirst, hOthers⟩ => ⟨hFirst.runsFit, hOthers.allRunsFit⟩

end

theorem Alternative.allFit_iff {depth : Nat} {as : List Alternative} :
    Alternative.AllFit depth as ↔ ∀ a ∈ as, a.Fits depth := by
  induction as with
  | nil => simp [Alternative.AllFit]
  | cons a as ih => rw [Alternative.AllFit, ih, List.forall_mem_cons]

theorem Alternative.allRunsFit_iff {depth : Nat} {as : List Alternative} :
    Alternative.AllRunsFit depth as ↔ ∀ a ∈ as, a.RunsFit depth := by
  induction as with
  | nil => simp [Alternative.AllRunsFit]
  | cons a as ih => rw [Alternative.AllRunsFit, ih, List.forall_mem_cons]

namespace Schema

open Description

theorem fits_iff_alternatives {depth : Nat} {s : Schema} :
    s.Fits depth ↔ ∀ a ∈ s.alternatives, a.Fits depth := by
  cases s with
  | choice alternatives => exact Alternative.allFit_iff
  | _ => simp only [alternatives, List.forall_mem_singleton, Alternative.Fits]

theorem runsFit_iff_alternatives {depth : Nat} {s : Schema} :
    s.RunsFit depth ↔ ∀ a ∈ s.alternatives, a.RunsFit depth := by
  cases s with
  | choice alternatives => exact Alternative.allRunsFit_iff
  | _ => simp only [alternatives, List.forall_mem_singleton, Alternative.RunsFit]

/-- Inside up to `depth` brackets the written form is within the limit as soon as its runs
of suffixes are. -/
def BracketsFit (depth : Nat) (s : Schema) : Prop :=
  ∀ d, d ≤ depth → s.RunsFit d → s.Fits d

/-- The same where the schema is written as an atom, in parentheses if needed. -/
structure AtomBracketsFit (depth : Nat) (s : Schema) : Prop where
  inside : s.BracketsFit (if s.isGrouped then depth + 1 else depth)
  grouped : s.isGrouped = true → depth < maxNesting

variable {depth : Nat} {s : Schema}

theorem BracketsFit.mono {depth' : Nat} (h : s.BracketsFit depth) (hDepth : depth' ≤ depth) :
    s.BracketsFit depth' :=
  fun d hLe => h d (Nat.le_trans hLe hDepth)

theorem bracketsFit_atom (depth : Nat) (a : Atom) : (Schema.choice [.atom a]).BracketsFit depth :=
  fun _ _ _ => ⟨trivial, trivial⟩

theorem BracketsFit.pair {left right : Schema} (hDepth : depth < maxNesting)
    (hLeft : left.BracketsFit (depth + 1)) (hRight : right.BracketsFit (depth + 1)) :
    (Schema.pair left right).BracketsFit depth := by
  rintro d hLe ⟨hLeftRuns, hRightRuns⟩
  have hInner := Nat.succ_le_succ hLe
  exact ⟨Nat.lt_of_le_of_lt hLe hDepth, hLeft _ hInner hLeftRuns, hRight _ hInner hRightRuns⟩

theorem bracketsFit_union {parts : List Schema} (h : ∀ s ∈ parts, s.BracketsFit depth) :
    (Schema.union parts).BracketsFit depth := by
  unfold union
  split
  · next only => exact h only List.mem_cons_self
  · intro d hLe hRuns
    refine fits_iff_alternatives.mpr fun a hMember => ?_
    obtain ⟨s, hPart, hOffered⟩ := List.mem_flatMap.mp hMember
    have hPartRuns : s.RunsFit d := by
      refine runsFit_iff_alternatives.mpr fun a' hOffered' => ?_
      exact runsFit_iff_alternatives.mp hRuns a' (List.mem_flatMap.mpr ⟨s, hPart, hOffered'⟩)
    exact fits_iff_alternatives.mp (h s hPart d hLe hPartRuns) a hOffered

/-- What is not put in parentheses is written alike as an atom. -/
theorem BracketsFit.atom (hPlain : s.isGrouped = false) (h : s.BracketsFit depth) :
    s.AtomBracketsFit depth := by
  constructor
  · rw [hPlain]
    exact h
  · rw [hPlain]
    exact fun hGrouped => absurd hGrouped Bool.false_ne_true

/-- A group in the text leaves room for one in the written form. -/
theorem BracketsFit.group (hDepth : depth < maxNesting) (h : s.BracketsFit (depth + 1)) :
    s.AtomBracketsFit depth := by
  constructor
  · split
    · exact h
    · exact h.mono (Nat.le_succ depth)
  · exact fun _ => hDepth

namespace AtomBracketsFit

theorem bracketsFit (h : s.AtomBracketsFit depth) : s.BracketsFit depth := by
  apply h.inside.mono
  split
  · exact Nat.le_succ depth
  · exact Nat.le_refl depth

theorem list (h : s.AtomBracketsFit depth) : (Schema.list s).AtomBracketsFit depth := by
  apply BracketsFit.atom rfl
  rintro d hLe ⟨hRuns, hRun⟩
  have hInside := h.inside
  refine ⟨?_, hRun⟩
  cases hGrouped : s.isGrouped with
  | false =>
      rw [hGrouped] at hInside hRuns
      exact hInside d hLe hRuns
  | true =>
      rw [hGrouped] at hInside hRuns
      exact ⟨Nat.lt_of_le_of_lt hLe (h.grouped hGrouped), hInside _ (Nat.succ_le_succ hLe) hRuns⟩

theorem repeat_list (h : s.AtomBracketsFit depth) (k : Nat) :
    (Nat.repeat Schema.list k s).AtomBracketsFit depth := by
  induction k with
  | zero => exact h
  | succ k ih => exact ih.list

end AtomBracketsFit

end Schema

namespace Description

/-- What the brackets of the text around a part of a description say about those of its
written form. -/
def Phrase.BracketsFit (depth : Nat) : Phrase → Prop
  | core s | atom s => s.AtomBracketsFit depth
  | choice s => s.BracketsFit depth
  | atoms parts => ∀ s ∈ parts, s.BracketsFit depth
  | items parts => EachItem Schema.BracketsFit depth parts

theorem Phrase.bracketsFit_items {depth : Nat} {parts : List Schema} {tail : Atom}
    (hParts : (items parts).BracketsFit (depth + 1)) (hLength : depth + parts.length ≤ maxNesting) :
    (Schema.items parts (.choice [.atom tail])).BracketsFit depth := by
  induction parts generalizing depth with
  | nil => exact Schema.bracketsFit_atom depth tail
  | cons first others ih =>
      rw [List.length_cons] at hLength
      obtain ⟨hFirst, hOthers⟩ := hParts
      exact .pair (by omega) hFirst (ih hOthers (by omega))

/-- A fixed list is no choice of several, so it needs no parentheses. -/
theorem Phrase.bracketsFit_core_items {depth : Nat} {parts : List Schema} {tail : Atom}
    (hParts : (items parts).BracketsFit (depth + 1))
    (hLength : depth + 1 + parts.length ≤ maxNesting) :
    (core (.items parts (.choice [.atom tail]))).BracketsFit depth := by
  have hPlain : (Schema.items parts (.choice [.atom tail])).isGrouped = false := by
    cases parts <;> rfl
  exact (Phrase.bracketsFit_items hParts (by omega)).atom hPlain

/-- Brackets are only written where the text had some as well. -/
theorem Derives.bracketsFit {depth : Nat} {ls : List Lexeme} {phrase : Phrase}
    (h : Derives maxNesting depth ls phrase) : phrase.BracketsFit depth := by
  induction h with
  | name name => exact (Schema.bracketsFit_atom _ _).atom rfl
  | number n => exact (Schema.bracketsFit_atom _ _).atom rfl
  | group fits _ ih => exact ih.group fits
  | pair fits _ _ ihFirst ihSecond => exact (ihFirst.pair fits ihSecond).atom rfl
  | none _ => exact (Schema.bracketsFit_atom _ _).atom rfl
  | anything _ => exact (Schema.bracketsFit_atom _ _).atom rfl
  | closed fits _ ih => exact Phrase.bracketsFit_core_items ih fits
  | opened fits _ ih => exact Phrase.bracketsFit_core_items ih fits
  | suffixed k _ _ ih => exact ih.repeat_list k
  | oneAtom _ ih => exact List.forall_mem_singleton.mpr ih.bracketsFit
  | nextAtom _ _ ihBefore ihNext =>
      exact List.forall_mem_append.mpr ⟨ihBefore, List.forall_mem_singleton.mpr ihNext.bracketsFit⟩
  | choice _ ih => exact Schema.bracketsFit_union ih
  | oneItem _ ih => exact ⟨ih, trivial⟩
  | nextItem _ _ ihBefore ihNext => exact EachItem.concat ihBefore ihNext

theorem Derives.fits_iff_runsFit {ls : List Lexeme} {s : Schema}
    (h : Derives maxNesting 0 ls (.choice s)) : s.Fits 0 ↔ s.RunsFit 0 :=
  ⟨Schema.Fits.runsFit, h.bracketsFit 0 (Nat.le_refl 0)⟩

end Description

namespace Schema

open Description

theorem writable_atom {a : Atom} (hName : (Alternative.atom a).ProperName) :
    (Schema.choice [.atom a]).Writable :=
  ⟨⟨(normal_atom a).1, List.forall_mem_singleton.mpr hName⟩, trivial, trivial⟩

theorem properName_of_mem_alternatives {s : Schema} (h : s.Writable) :
    ∀ a ∈ s.alternatives, a.ProperName := by
  cases s with
  | choice alternatives => exact h.1.names
  | _ => exact List.forall_mem_singleton.mpr trivial

theorem writable_union {parts : List Schema} (hNormal : ∀ s ∈ parts, s.Normal)
    (hNonempty : parts ≠ []) (h : ∀ s ∈ parts, s.Writable) : (Schema.union parts).Writable := by
  apply everywhere_union h
  intro hSeveral
  refine ⟨normalChoice_alternatives hNormal hNonempty hSeveral, fun a hMember => ?_⟩
  obtain ⟨s, hPart, hOffered⟩ := List.mem_flatMap.mp hMember
  exact properName_of_mem_alternatives (h s hPart) a hOffered

end Schema

namespace Description

theorem Derives.writable {limit depth : Nat} {ls : List Lexeme} {phrase : Phrase}
    (h : Derives limit depth ls phrase) (hNames : ∀ l ∈ ls, l.WellFormed) :
    ∀ s ∈ phrase.schemas, s.Writable := by
  have hOne {s : Schema} (hWritable : s.Writable) : ∀ s' ∈ [s], s'.Writable :=
    List.forall_mem_singleton.mpr hWritable
  have hNil : (Schema.named "nil").Writable := Schema.writable_atom (by decide)
  have hAny : Schema.any.Writable := Schema.writable_atom (by decide)
  induction h with
  | name name => exact hOne (Schema.writable_atom (hNames _ List.mem_cons_self))
  | number n => exact hOne (Schema.writable_atom trivial)
  | group _ _ ih =>
      rw [List.forall_mem_cons, List.forall_mem_append] at hNames
      exact ih hNames.2.1
  | pair _ _ _ ihFirst ihSecond =>
      rw [List.forall_mem_cons, List.forall_mem_append, List.forall_mem_cons,
        List.forall_mem_append] at hNames
      obtain ⟨-, hLeft, -, hRight, -⟩ := hNames
      have hFirst := List.forall_mem_singleton.mp (ihFirst hLeft)
      have hSecond := List.forall_mem_singleton.mp (ihSecond hRight)
      exact hOne ⟨hFirst, hSecond⟩
  | none => exact hOne hNil
  | anything => exact hOne hAny
  | closed _ _ ih =>
      rw [List.forall_mem_cons, List.forall_mem_append] at hNames
      exact hOne (Schema.everywhere_items (ih hNames.2.1) hNil)
  | opened _ _ ih =>
      rw [List.forall_mem_cons, List.forall_mem_append] at hNames
      exact hOne (Schema.everywhere_items (ih hNames.2.1) hAny)
  | suffixed k _ _ ih =>
      have hCore := ih (List.forall_mem_append.mp hNames).1
      exact hOne (Schema.writable_repeat_list k (List.forall_mem_singleton.mp hCore))
  | oneAtom _ ih => exact ih hNames
  | nextAtom _ _ ihBefore ihNext =>
      rw [List.forall_mem_append, List.forall_mem_cons] at hNames
      exact List.forall_mem_append.mpr ⟨ihBefore hNames.1, ihNext hNames.2.2⟩
  | choice all ih =>
      exact hOne (Schema.writable_union all.normal.2 all.normal.1 (ih hNames))
  | oneItem _ ih => exact ih hNames
  | nextItem _ _ ihBefore ihNext =>
      rw [List.forall_mem_append, List.forall_mem_cons] at hNames
      exact List.forall_mem_append.mpr ⟨ihBefore hNames.1, ihNext hNames.2.2⟩

/-- An accepted text is a sentence of names that the scanner knows. So is, instead of a
text without tokens, the name of what it means. -/
theorem exists_derives_of_ofText {text : String} {s : Schema} (h : Schema.ofText text = .ok s) :
    ∃ ls, (∀ l ∈ ls, l.WellFormed) ∧ Derives maxNesting 0 ls (.choice s) := by
  unfold Schema.ofText at h
  cases hTokens : tokens text with
  | error e =>
      rw [hTokens] at h
      cases h
  | ok ts =>
      rw [hTokens] at h
      change read ts = .ok s at h
      cases ts with
      | nil =>
          cases h
          have hAny : IsName "any" := by decide
          exact ⟨[.identifier "any"], List.forall_mem_singleton.mpr hAny,
            .only 0 (.inl rfl) (.name "any")⟩
      | cons t ts =>
          have hFormed := wellFormed_of_tokensFrom hTokens
          exact ⟨_, List.forall_mem_map.mpr hFormed, derives_of_read h⟩

end Description

namespace Schema

open Description

theorem ofText_text_of_writable {s : Schema} (h : s.Writable) :
    (s.Fits 0 → ofText s.text = .ok s) ∧
    (¬ s.Fits 0 → ∃ span, ofText s.text = .error (Progress.tooDeep span)) := by
  have hRead : ofText s.text = read (placed 0 s.lexemes) := by
    rw [ofText, tokens_text h]
    rfl
  rw [hRead]
  exact (s.leads h []).2.read_eq (lexemes_ne_nil h) (map_lexeme_placed 0 s.lexemes)

theorem ofText_name {name : String} (h : IsName name) : ofText name = .ok (named name) :=
  (ofText_text_of_writable (s := named name) (writable_atom h)).1 ⟨trivial, trivial⟩

/-- What a text was read as is read from its own written form again if its runs of
suffixes fit there. Otherwise the written form is nested too deep, which is then the error. -/
theorem ofText_text_of_ofText {text : String} {s : Schema} (h : ofText text = .ok s) :
    (s.RunsFit 0 → ofText s.text = .ok s) ∧
    (¬ s.RunsFit 0 → ∃ span, ofText s.text = .error (Progress.tooDeep span) ∧
      (Progress.tooDeep span).message = "Type nesting too deep") := by
  obtain ⟨ls, hNames, hDerived⟩ := exists_derives_of_ofText h
  have hWritable : s.Writable := hDerived.writable hNames s List.mem_cons_self
  obtain ⟨hAgain, hDeep⟩ := ofText_text_of_writable hWritable
  rw [hDerived.fits_iff_runsFit] at hAgain hDeep
  refine ⟨hAgain, fun hRuns => ?_⟩
  obtain ⟨span, hError⟩ := hDeep hRuns
  exact ⟨span, hError, rfl⟩

theorem ofText_placed {ls : List Lexeme} (h : Separated ls) :
    ofText (String.ofList (written ls)) = read (placed 0 ls) := by
  rw [ofText, tokens, String.toList_ofList, tokensFrom_written 0 ls h]
  rfl

/-- A sentence of the grammar that is written without blanks. -/
theorem ofText_written {ls : List Lexeme} {s : Schema} (hSeparated : Separated ls)
    (h : Derives maxNesting 0 ls (.choice s)) : ofText (String.ofList (written ls)) = .ok s := by
  rw [ofText_placed hSeparated]
  apply Derives.read_eq_ok
  rw [map_lexeme_placed]
  exact h

theorem separated_suffixLexemes (k : Nat) {rest : List Lexeme} (h : Separated rest) :
    Separated (suffixLexemes k ++ rest) := by
  induction k with
  | zero => exact h
  | succ k ih => exact (ih.symbol (by decide)).symbol (by decide)

/-- The text `(int[]…[])[]…[]`. -/
theorem ofText_regrouped (inner outer : Nat) (hInner : inner < maxNesting)
    (hOuter : outer ≤ maxNesting) :
    ofText (String.ofList (written (regrouped [.identifier "int"] inner outer))) =
      .ok (Nat.repeat .list (inner + outer) (.named "int")) := by
  apply ofText_written
  · have hOuterRun : Separated (suffixLexemes outer) := by
      rw [← List.append_nil (suffixLexemes outer)]
      exact separated_suffixLexemes outer trivial
    have hInnerRun : Separated
        (suffixLexemes inner ++ .symbol .groupClose :: suffixLexemes outer) :=
      separated_suffixLexemes inner (hOuterRun.symbol (by decide))
    have hStop : ¬ (Lexeme.identifier "int").Continues
        (written (suffixLexemes inner ++ .symbol .groupClose :: suffixLexemes outer)) := by
      cases inner with
      | zero => exact (by decide : ¬ isNameChar ')' = true)
      | succ inner => exact (by decide : ¬ isNameChar '[' = true)
    have hName : IsName "int" := by decide
    have hCore : Separated (.identifier "int" ::
        (suffixLexemes inner ++ .symbol .groupClose :: suffixLexemes outer)) :=
      ⟨hName, hStop, hInnerRun⟩
    have hAll := hCore.symbol (s := .groupOpen) (by decide)
    rw [regrouped, List.cons_append, List.append_assoc, List.append_assoc]
    exact hAll
  · apply Derives.regrouped (by decide) (.inr (by omega)) (.inr (by omega))
    exact .name "int"

theorem not_runsFit_repeat_list : ¬ (Nat.repeat Schema.list 257 (.named "int")).RunsFit 0 := by
  rintro ⟨-, hRun⟩
  rw [suffixes_repeat_list] at hRun
  exact absurd hRun (by decide)

/-- `(int[])[]` is written without the parentheses and read as the same again; with 256
suffixes after the parentheses all 257 are too many. -/
theorem ofText_text_of_ofText_regrouped :
    (ofText (String.ofList (written (regrouped [.identifier "int"] 1 1))) =
        .ok (.list (.list (.named "int"))) ∧
      ofText (Schema.list (.list (.named "int"))).text = .ok (.list (.list (.named "int")))) ∧
    ofText (String.ofList (written (regrouped [.identifier "int"] 1 256))) =
        .ok (Nat.repeat .list 257 (.named "int")) ∧
      ∃ span, ofText (Nat.repeat Schema.list 257 (.named "int")).text =
          .error (Progress.tooDeep span) ∧
        (Progress.tooDeep span).message = "Type nesting too deep" := by
  have hTwo := ofText_regrouped 1 1 (by decide) (by decide)
  have hMany := ofText_regrouped 1 256 (by decide) (by decide)
  have hRuns : (Schema.list (.list (.named "int"))).RunsFit 0 :=
    ⟨⟨⟨trivial, trivial⟩, by decide⟩, by decide⟩
  exact ⟨⟨hTwo, (ofText_text_of_ofText hTwo).1 hRuns⟩, hMany,
    (ofText_text_of_ofText hMany).2 not_runsFit_repeat_list⟩

/-- So not every accepted text is read as the same again from its written form. -/
theorem ofText_text_ne_regrouped :
    ofText (String.ofList (written (regrouped [.identifier "int"] 1 256))) =
        .ok (Nat.repeat .list 257 (.named "int")) ∧
      ofText (Nat.repeat Schema.list 257 (.named "int")).text ≠
        .ok (Nat.repeat .list 257 (.named "int")) := by
  refine ⟨ofText_regrouped 1 256 (by decide) (by decide), ?_⟩
  have hWritable : (Nat.repeat Schema.list 257 (.named "int")).Writable :=
    writable_repeat_list 257 (writable_atom (by decide))
  obtain ⟨span, hError⟩ := (ofText_text_of_writable hWritable).2
    fun hFits => not_runsFit_repeat_list hFits.runsFit
  rw [hError]
  rintro ⟨⟩

end Schema

end TreeSchema
