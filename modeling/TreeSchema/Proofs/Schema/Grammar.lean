import TreeSchema.Proofs.Schema.Writing
import TreeSchema.Schema.Description

/-! The grammar of type descriptions. Each rule says how deep it stands and what it
denotes; brackets, list suffixes and the items of a fixed list must stay within a limit.
What the grammar denotes is in normal form, so it does not matter whether choices are
spliced as they are read or when they are complete. -/
namespace TreeSchema

/-- The alternatives that a schema has to offer: a choice offers its own. -/
def Schema.alternatives : Schema → List Alternative
  | .choice alternatives => alternatives
  | s => [.schema s]

/-- What schemas with bars between them denote. A single one stays as it is; of several,
those that are choices are spliced in place. -/
def Schema.union : List Schema → Schema
  | [only] => only
  | parts => .choice (parts.flatMap Schema.alternatives)

/-- A schema in normal form, whatever its names are. -/
def Schema.Normal (s : Schema) : Prop :=
  s.Everywhere NormalChoice

namespace Description

/-- The lexemes of `k` list suffixes. -/
def suffixLexemes (k : Nat) : List Lexeme :=
  (List.replicate k [.symbol .listOpen, .symbol .listClose]).flatten

theorem suffixLexemes_succ (k : Nat) :
    suffixLexemes (k + 1) = suffixLexemes k ++ [.symbol .listOpen, .symbol .listClose] := by
  rw [suffixLexemes, List.replicate_succ', List.flatten_concat]
  rfl

/-- The parts of a description, each with what it denotes. -/
inductive Phrase where
  /-- A name, a number or a bracketed form. -/
  | core (s : Schema)
  /-- A core and its list suffixes. -/
  | atom (s : Schema)
  /-- Atoms with bars between them. -/
  | atoms (parts : List Schema)
  /-- The atoms of a choice, taken together. -/
  | choice (s : Schema)
  /-- Choices with commas between them, each one level deeper than the one before. -/
  | items (parts : List Schema)

/-- The rules of the grammar: `Derives limit depth ls phrase` says that the lexemes `ls`,
inside `depth` levels of nesting, make up `phrase`. -/
inductive Derives (limit : Nat) : Nat → List Lexeme → Phrase → Prop where
  | name {depth : Nat} (name : String) :
      Derives limit depth [.identifier name] (.core (.named name))
  | number {depth : Nat} (n : UInt64) :
      Derives limit depth [.integer n] (.core (.choice [.atom (.number n)]))
  | group {depth : Nat} {ls : List Lexeme} {s : Schema} (fits : depth < limit)
      (inside : Derives limit (depth + 1) ls (.choice s)) :
      Derives limit depth (.symbol .groupOpen :: (ls ++ [.symbol .groupClose])) (.core s)
  | pair {depth : Nat} {ls ls' : List Lexeme} {left right : Schema} (fits : depth < limit)
      (first : Derives limit (depth + 1) ls (.choice left))
      (second : Derives limit (depth + 1) ls' (.choice right)) :
      Derives limit depth
        (.symbol .treeOpen :: (ls ++ .symbol .dot :: (ls' ++ [.symbol .treeClose])))
        (.core (.pair left right))
  | none {depth : Nat} (fits : depth < limit) :
      Derives limit depth [.symbol .listOpen, .symbol .listClose] (.core (.named "nil"))
  | anything {depth : Nat} (fits : depth < limit) :
      Derives limit depth [.symbol .listOpen, .symbol .dots, .symbol .listClose] (.core .any)
  | closed {depth : Nat} {ls : List Lexeme} {parts : List Schema}
      (fits : depth + 1 + parts.length ≤ limit)
      (inside : Derives limit (depth + 1) ls (.items parts)) :
      Derives limit depth (.symbol .listOpen :: (ls ++ [.symbol .listClose]))
        (.core (.items parts (.named "nil")))
  | opened {depth : Nat} {ls : List Lexeme} {parts : List Schema}
      (fits : depth + 1 + parts.length ≤ limit)
      (inside : Derives limit (depth + 1) ls (.items parts)) :
      Derives limit depth
        (.symbol .listOpen :: (ls ++ [.symbol .comma, .symbol .dots, .symbol .listClose]))
        (.core (.items parts .any))
  | suffixed {depth : Nat} {ls : List Lexeme} {s : Schema} (k : Nat)
      (fits : k = 0 ∨ depth + k ≤ limit) (core : Derives limit depth ls (.core s)) :
      Derives limit depth (ls ++ suffixLexemes k) (.atom (Nat.repeat .list k s))
  | oneAtom {depth : Nat} {ls : List Lexeme} {s : Schema}
      (only : Derives limit depth ls (.atom s)) : Derives limit depth ls (.atoms [s])
  | nextAtom {depth : Nat} {ls ls' : List Lexeme} {parts : List Schema} {s : Schema}
      (before : Derives limit depth ls (.atoms parts)) (next : Derives limit depth ls' (.atom s)) :
      Derives limit depth (ls ++ .symbol .bar :: ls') (.atoms (parts ++ [s]))
  | choice {depth : Nat} {ls : List Lexeme} {parts : List Schema}
      (all : Derives limit depth ls (.atoms parts)) :
      Derives limit depth ls (.choice (.union parts))
  | oneItem {depth : Nat} {ls : List Lexeme} {s : Schema}
      (only : Derives limit depth ls (.choice s)) : Derives limit depth ls (.items [s])
  | nextItem {depth : Nat} {ls ls' : List Lexeme} {parts : List Schema} {s : Schema}
      (before : Derives limit depth ls (.items parts))
      (next : Derives limit (depth + parts.length) ls' (.choice s)) :
      Derives limit depth (ls ++ .symbol .comma :: ls') (.items (parts ++ [s]))

/-- Whether `p` holds of each item of a fixed list at the depth of the item. -/
def EachItem (p : Nat → Schema → Prop) (depth : Nat) : List Schema → Prop
  | [] => True
  | first :: others => p depth first ∧ EachItem p (depth + 1) others

theorem EachItem.concat {p : Nat → Schema → Prop} {depth : Nat} {parts : List Schema}
    {last : Schema} (hBefore : EachItem p depth parts) (hLast : p (depth + parts.length) last) :
    EachItem p depth (parts ++ [last]) := by
  induction parts generalizing depth with
  | nil => exact ⟨hLast, trivial⟩
  | cons first others ih =>
      rw [List.length_cons, Nat.add_comm others.length, ← Nat.add_assoc] at hLast
      exact ⟨hBefore.1, ih hBefore.2 hLast⟩

/-- What a part of a description denotes, in one list. -/
def Phrase.schemas : Phrase → List Schema
  | core s | atom s | choice s => [s]
  | atoms parts | items parts => parts

end Description

theorem Alternative.allEverywhere_iff {p : List Alternative → Prop} {as : List Alternative} :
    Alternative.AllEverywhere p as ↔ ∀ a ∈ as, a.Everywhere p := by
  induction as with
  | nil => simp [Alternative.AllEverywhere]
  | cons a as ih => rw [Alternative.AllEverywhere, ih, List.forall_mem_cons]

namespace Schema

theorem everywhere_repeat_list {p : List Alternative → Prop} (k : Nat) {s : Schema}
    (h : s.Everywhere p) : (Nat.repeat Schema.list k s).Everywhere p := by
  induction k with
  | zero => exact h
  | succ k ih => exact ih

theorem everywhere_items {p : List Alternative → Prop} {parts : List Schema} {tail : Schema}
    (hParts : ∀ s ∈ parts, s.Everywhere p) (hTail : tail.Everywhere p) :
    (Schema.items parts tail).Everywhere p := by
  induction parts with
  | nil => exact hTail
  | cons first others ih =>
      rw [List.forall_mem_cons] at hParts
      exact ⟨hParts.1, ih hParts.2⟩

theorem everywhere_of_mem_alternatives {p : List Alternative → Prop} {s : Schema}
    {a : Alternative} (h : s.Everywhere p) (hMember : a ∈ s.alternatives) : a.Everywhere p := by
  cases s with
  | choice alternatives => exact Alternative.allEverywhere_iff.mp h.2 a hMember
  | list item =>
      rw [List.mem_singleton.mp hMember]
      exact h
  | pair left right =>
      rw [List.mem_singleton.mp hMember]
      exact h

theorem everywhere_union {p : List Alternative → Prop} {parts : List Schema}
    (hParts : ∀ s ∈ parts, s.Everywhere p)
    (hSeveral : parts.length ≠ 1 → p (parts.flatMap Schema.alternatives)) :
    (Schema.union parts).Everywhere p := by
  unfold union
  split
  · next only => exact hParts only List.mem_cons_self
  · next hMany =>
      refine ⟨hSeveral fun hOne => ?_, Alternative.allEverywhere_iff.mpr fun a hMember => ?_⟩
      · obtain ⟨only, rfl⟩ := List.length_eq_one_iff.mp hOne
        exact hMany only rfl
      · obtain ⟨s, hPart, hOffered⟩ := List.mem_flatMap.mp hMember
        exact everywhere_of_mem_alternatives (hParts s hPart) hOffered

namespace Normal

variable {s : Schema}

theorem alternatives_ne_nil (h : s.Normal) : s.alternatives ≠ [] := by
  cases s with
  | choice alternatives => exact h.1.nonempty
  | list item => exact List.cons_ne_nil _ _
  | pair left right => exact List.cons_ne_nil _ _

theorem flat (h : s.Normal) : ∀ a ∈ s.alternatives, a.isChoice = false := by
  intro a hMember
  cases s with
  | choice alternatives => exact h.1.flat a hMember
  | list item =>
      rw [List.mem_singleton.mp hMember]
      rfl
  | pair left right =>
      rw [List.mem_singleton.mp hMember]
      rfl

/-- As a member of a choice, a schema in normal form adds what it has to offer. -/
theorem members_toAlternative (h : s.Normal) : s.toAlternative.members = s.alternatives := by
  cases s with
  | list item => rfl
  | pair left right => rfl
  | choice alternatives =>
      match alternatives, h.1 with
      | [.atom _], _ => rfl
      | [.schema s], hChoice => exact absurd (hChoice.single (.schema s) rfl) Bool.false_ne_true
      | [], _ => rfl
      | _ :: _ :: _, _ => rfl

end Normal

theorem length_alternatives_ge {parts : List Schema} (hParts : ∀ s ∈ parts, s.Normal) :
    parts.length ≤ (parts.flatMap Schema.alternatives).length := by
  induction parts with
  | nil => exact Nat.le_refl _
  | cons first others ih =>
      rw [List.forall_mem_cons] at hParts
      have hFirst := List.length_pos_iff.mpr hParts.1.alternatives_ne_nil
      have hOthers := ih hParts.2
      rw [List.flatMap_cons, List.length_append, List.length_cons]
      omega

/-- Several schemas in normal form make up a choice in normal form. -/
theorem normalChoice_alternatives {parts : List Schema} (hParts : ∀ s ∈ parts, s.Normal)
    (hNonempty : parts ≠ []) (hSeveral : parts.length ≠ 1) :
    NormalChoice (parts.flatMap Schema.alternatives) := by
  have hLength := length_alternatives_ge hParts
  have hPositive := List.length_pos_iff.mpr hNonempty
  constructor
  · intro hNil
    rw [hNil, List.length_nil] at hLength
    omega
  · intro a hMember
    obtain ⟨s, hPart, hOffered⟩ := List.mem_flatMap.mp hMember
    exact (hParts s hPart).flat a hOffered
  · intro a hOne
    rw [hOne, List.length_singleton] at hLength
    omega

theorem normal_union {parts : List Schema} (hParts : ∀ s ∈ parts, s.Normal)
    (hNonempty : parts ≠ []) : (Schema.union parts).Normal :=
  everywhere_union hParts (normalChoice_alternatives hParts hNonempty)

theorem normal_atom (a : Atom) : (Schema.choice [.atom a]).Normal := by
  refine ⟨⟨List.cons_ne_nil _ _, ?_, ?_⟩, trivial, trivial⟩
  · intro b hMember
    rw [List.mem_singleton.mp hMember]
    rfl
  · rintro b hOne
    rw [← List.singleton_inj.mp hOne]
    rfl

theorem flatMap_members_toAlternative {parts : List Schema} (hParts : ∀ s ∈ parts, s.Normal) :
    (parts.map toAlternative).flatMap Alternative.members = parts.flatMap Schema.alternatives := by
  rw [List.flatMap_map]
  exact congrArg List.flatten
    (List.map_congr_left fun s hPart => (hParts s hPart).members_toAlternative)

theorem oneOf_eq_choice {alternatives : List Alternative}
    (h : (alternatives.flatMap Alternative.members).length ≠ 1) :
    Schema.oneOf alternatives = .choice (alternatives.flatMap Alternative.members) := by
  unfold oneOf
  split
  · next hOne =>
      rw [hOne] at h
      exact absurd rfl h
  · rfl

/-- Splicing alternatives one by one, as the reader does it, makes the same of them. -/
theorem oneOf_map_toAlternative {parts : List Schema} (hParts : ∀ s ∈ parts, s.Normal)
    (hNonempty : parts ≠ []) : Schema.oneOf (parts.map toAlternative) = Schema.union parts := by
  have hMembers := flatMap_members_toAlternative hParts
  match parts, hParts, hNonempty with
  | [], _, hNonempty => exact absurd rfl hNonempty
  | [.list item], _, _ | [.pair left right], _, _ | [.choice [.atom a]], _, _ => rfl
  | [.choice [.schema s]], hParts, _ =>
      have hOnly := hParts _ List.mem_cons_self
      exact absurd (hOnly.1.single (.schema s) rfl) Bool.false_ne_true
  | [.choice []], hParts, _ => exact absurd rfl (hParts _ List.mem_cons_self).1.nonempty
  | [.choice (a :: b :: others)], _, _ =>
      rw [oneOf_eq_choice (by rw [hMembers]; simp [Schema.alternatives]), hMembers,
        List.flatMap_singleton]
      rfl
  | first :: second :: others, hParts, _ =>
      have hLength := length_alternatives_ge hParts
      simp only [List.length_cons] at hLength
      rw [oneOf_eq_choice (by rw [hMembers]; omega), hMembers]
      rfl

end Schema

namespace Description

variable {limit depth : Nat} {ls : List Lexeme} {phrase : Phrase}

/-- No part of a description is empty. -/
theorem Derives.lexemes_ne_nil (h : Derives limit depth ls phrase) : ls ≠ [] := by
  induction h with
  | suffixed _ _ _ ih => exact List.append_ne_nil_of_left_ne_nil ih _
  | nextAtom _ _ ih _ => exact List.append_ne_nil_of_left_ne_nil ih _
  | nextItem _ _ ih _ => exact List.append_ne_nil_of_left_ne_nil ih _
  | oneAtom _ ih => exact ih
  | choice _ ih => exact ih
  | oneItem _ ih => exact ih
  | _ => exact List.cons_ne_nil _ _

/-- What is derived at one depth is derived at any other with as much room below a limit. -/
theorem Derives.room {limit' depth' : Nat} (h : Derives limit depth ls phrase)
    (hRoom : limit + depth' ≤ limit' + depth) : Derives limit' depth' ls phrase := by
  induction h generalizing depth' with
  | name name => exact .name name
  | number n => exact .number n
  | group fits _ ih => exact .group (by omega) (ih (by omega))
  | pair fits _ _ ihFirst ihSecond =>
      exact .pair (by omega) (ihFirst (by omega)) (ihSecond (by omega))
  | none fits => exact .none (by omega)
  | anything fits => exact .anything (by omega)
  | closed fits _ ih => exact .closed (by omega) (ih (by omega))
  | opened fits _ ih => exact .opened (by omega) (ih (by omega))
  | suffixed k fits _ ih => exact .suffixed k (by omega) (ih hRoom)
  | oneAtom _ ih => exact .oneAtom (ih hRoom)
  | nextAtom _ _ ihBefore ihNext => exact .nextAtom (ihBefore hRoom) (ihNext hRoom)
  | choice _ ih => exact .choice (ih hRoom)
  | oneItem _ ih => exact .oneItem (ih hRoom)
  | nextItem _ _ ihBefore ihNext => exact .nextItem (ihBefore hRoom) (ihNext (by omega))

/-- What fits within a limit fits within a larger one. -/
theorem Derives.mono {limit' : Nat} (h : Derives limit depth ls phrase) (hLimit : limit ≤ limit') :
    Derives limit' depth ls phrase :=
  h.room (by omega)

/-- Every part of a description denotes something, and all of that is in normal form. -/
theorem Derives.normal (h : Derives limit depth ls phrase) :
    phrase.schemas ≠ [] ∧ ∀ s ∈ phrase.schemas, s.Normal := by
  have hOne {s : Schema} (hNormal : s.Normal) : [s] ≠ [] ∧ ∀ s' ∈ [s], s'.Normal :=
    ⟨List.cons_ne_nil _ _, List.forall_mem_singleton.mpr hNormal⟩
  have hNext {parts : List Schema} {s : Schema} (hParts : ∀ s' ∈ parts, s'.Normal)
      (hLast : s.Normal) : parts ++ [s] ≠ [] ∧ ∀ s' ∈ parts ++ [s], s'.Normal :=
    ⟨List.concat_ne_nil _ _,
      List.forall_mem_append.mpr ⟨hParts, List.forall_mem_singleton.mpr hLast⟩⟩
  induction h with
  | name name => exact hOne (Schema.normal_atom _)
  | number n => exact hOne (Schema.normal_atom _)
  | group _ _ ih => exact ih
  | pair _ _ _ ihFirst ihSecond =>
      exact hOne ⟨List.forall_mem_singleton.mp ihFirst.2, List.forall_mem_singleton.mp ihSecond.2⟩
  | none => exact hOne (Schema.normal_atom _)
  | anything => exact hOne (Schema.normal_atom _)
  | closed _ _ ih => exact hOne (Schema.everywhere_items ih.2 (Schema.normal_atom _))
  | opened _ _ ih => exact hOne (Schema.everywhere_items ih.2 (Schema.normal_atom _))
  | suffixed k _ _ ih =>
      exact hOne (Schema.everywhere_repeat_list k (List.forall_mem_singleton.mp ih.2))
  | oneAtom _ ih => exact ih
  | nextAtom _ _ ihBefore ihNext =>
      exact hNext ihBefore.2 (List.forall_mem_singleton.mp ihNext.2)
  | choice _ ih => exact hOne (Schema.normal_union ih.2 ih.1)
  | oneItem _ ih => exact ih
  | nextItem _ _ ihBefore ihNext =>
      exact hNext ihBefore.2 (List.forall_mem_singleton.mp ihNext.2)

/-- A core with suffixes makes up a whole choice. -/
theorem Derives.only {s : Schema} (k : Nat) (fits : k = 0 ∨ depth + k ≤ limit)
    (core : Derives limit depth ls (.core s)) :
    Derives limit depth (ls ++ suffixLexemes k) (.choice (Nat.repeat .list k s)) :=
  .choice (.oneAtom (.suffixed k fits core))

/-- A core with suffixes, in parentheses with more suffixes after them. -/
def regrouped (core : List Lexeme) (inner outer : Nat) : List Lexeme :=
  .symbol .groupOpen :: (core ++ suffixLexemes inner ++ [.symbol .groupClose]) ++
    suffixLexemes outer

theorem repeat_list_add (inner outer : Nat) (s : Schema) :
    Nat.repeat Schema.list outer (Nat.repeat .list inner s) =
      Nat.repeat .list (inner + outer) s := by
  induction outer with
  | zero => rfl
  | succ outer ih => exact congrArg Schema.list ih

/-- The two runs of suffixes must fit apart from each other, yet make up one run of lists. -/
theorem Derives.regrouped {s : Schema} {inner outer : Nat} (hDepth : depth < limit)
    (hInner : inner = 0 ∨ depth + 1 + inner ≤ limit) (hOuter : outer = 0 ∨ depth + outer ≤ limit)
    (core : Derives limit (depth + 1) ls (.core s)) :
    Derives limit depth (regrouped ls inner outer)
      (.choice (Nat.repeat .list (inner + outer) s)) := by
  have hGroup := Derives.group hDepth (.only inner hInner core)
  have hAll := Derives.only outer hOuter hGroup
  rw [repeat_list_add] at hAll
  exact hAll

/-- The choice that the reader makes of atoms is the one they denote. -/
theorem Derives.oneOf_eq {parts : List Schema} (h : Derives limit depth ls (.atoms parts)) :
    Schema.oneOf (parts.map Schema.toAlternative) = Schema.union parts :=
  Schema.oneOf_map_toAlternative h.normal.2 h.normal.1

end Description

end TreeSchema
