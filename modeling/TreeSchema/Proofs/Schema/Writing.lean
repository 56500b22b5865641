import TreeSchema.Proofs.Token.Spelling
import TreeSchema.Schema.Text

/-! The written form of a schema, lexeme by lexeme. For schemas in normal form it is
read back into the lexemes it was written from: bars, dots and brackets keep names
and numbers apart, and a dot is never followed by another one. -/
namespace TreeSchema

namespace Alternative

def isAtom : Alternative → Bool
  | atom _ => true
  | schema _ => false

def isChoice : Alternative → Bool
  | schema (.choice _) => true
  | _ => false

/-- Whether a name that stands here is one that the scanner knows. -/
def ProperName : Alternative → Prop
  | atom (.named name) => IsName name
  | _ => True

instance : (a : Alternative) → Decidable a.ProperName
  | atom (.named name) => inferInstanceAs (Decidable (IsName name))
  | atom (.number _) | schema _ => inferInstanceAs (Decidable True)

end Alternative

mutual

/-- Whether `p` holds of the alternatives of every choice in a schema. -/
def Schema.Everywhere (p : List Alternative → Prop) : Schema → Prop
  | .choice alternatives => p alternatives ∧ Alternative.AllEverywhere p alternatives
  | .list item => item.Everywhere p
  | .pair left right => left.Everywhere p ∧ right.Everywhere p

def Alternative.Everywhere (p : List Alternative → Prop) : Alternative → Prop
  | .atom _ => True
  | .schema s => s.Everywhere p

def Alternative.AllEverywhere (p : List Alternative → Prop) : List Alternative → Prop
  | [] => True
  | a :: as => a.Everywhere p ∧ Alternative.AllEverywhere p as

end

section

variable (p : List Alternative → Prop) [DecidablePred p]

mutual

def Schema.decidableEverywhere : (s : Schema) → Decidable (s.Everywhere p)
  | .choice alternatives =>
      have := Alternative.decidableAllEverywhere alternatives
      inferInstanceAs (Decidable (p alternatives ∧ _))
  | .list item => Schema.decidableEverywhere item
  | .pair left right =>
      have := Schema.decidableEverywhere left
      have := Schema.decidableEverywhere right
      inferInstanceAs (Decidable (left.Everywhere p ∧ right.Everywhere p))

def Alternative.decidableEverywhere : (a : Alternative) → Decidable (a.Everywhere p)
  | .atom _ => inferInstanceAs (Decidable True)
  | .schema s => Schema.decidableEverywhere s

def Alternative.decidableAllEverywhere :
    (as : List Alternative) → Decidable (Alternative.AllEverywhere p as)
  | [] => inferInstanceAs (Decidable True)
  | a :: as =>
      have := Alternative.decidableEverywhere a
      have := Alternative.decidableAllEverywhere as
      inferInstanceAs (Decidable (a.Everywhere p ∧ Alternative.AllEverywhere p as))

end

instance (s : Schema) : Decidable (s.Everywhere p) := Schema.decidableEverywhere p s

end

/-- The alternatives of a choice in normal form: there are some, none is itself a
choice, and a single one is an atom. -/
structure NormalChoice (alternatives : List Alternative) : Prop where
  nonempty : alternatives ≠ []
  flat : ∀ a ∈ alternatives, a.isChoice = false
  single : ∀ a, alternatives = [a] → a.isAtom = true

instance (alternatives : List Alternative) : Decidable (NormalChoice alternatives) :=
  decidable_of_iff (alternatives ≠ [] ∧ (∀ a ∈ alternatives, a.isChoice = false) ∧
    (alternatives.length = 1 → ∀ a ∈ alternatives, a.isAtom = true)) <| by
    constructor
    · rintro ⟨hNonempty, hFlat, hSingle⟩
      refine ⟨hNonempty, hFlat, ?_⟩
      rintro a rfl
      exact hSingle rfl a List.mem_cons_self
    · intro h
      refine ⟨h.nonempty, h.flat, fun hLength a hMember => ?_⟩
      obtain ⟨only, rfl⟩ := List.length_eq_one_iff.mp hLength
      rw [List.mem_singleton.mp hMember]
      exact h.single only rfl

/-- A choice in normal form whose names can be written. -/
structure WritableChoice (alternatives : List Alternative) : Prop
    extends NormalChoice alternatives where
  names : ∀ a ∈ alternatives, a.ProperName

instance (alternatives : List Alternative) : Decidable (WritableChoice alternatives) :=
  decidable_of_iff (NormalChoice alternatives ∧ ∀ a ∈ alternatives, a.ProperName)
    ⟨fun h => ⟨h.1, h.2⟩, fun h => ⟨h.toNormalChoice, h.names⟩⟩

/-- A schema in normal form whose names can be written. -/
def Schema.Writable (s : Schema) : Prop :=
  s.Everywhere WritableChoice

instance (s : Schema) : Decidable s.Writable :=
  inferInstanceAs (Decidable (s.Everywhere WritableChoice))

def Atom.lexeme : Atom → Lexeme
  | .named name => .identifier name
  | .number n => .integer n

/-- Whether a schema needs parentheses where a suffix follows. -/
def Schema.isGrouped : Schema → Bool
  | .choice (_ :: _ :: _) => true
  | _ => false

/-- Lexemes in parentheses, if they are needed. -/
def inGroup (needed : Bool) (ls : List Lexeme) : List Lexeme :=
  if needed then .symbol .groupOpen :: (ls ++ [.symbol .groupClose]) else ls

mutual

/-- The lexemes of the written form. -/
def Schema.lexemes : Schema → List Lexeme
  | .choice alternatives => Alternative.joinedLexemes alternatives
  | .list item =>
      inGroup item.isGrouped item.lexemes ++ [.symbol .listOpen, .symbol .listClose]
  | .pair left right =>
      .symbol .treeOpen ::
        (left.lexemes ++ .symbol .dot :: (right.lexemes ++ [.symbol .treeClose]))

def Alternative.lexemes : Alternative → List Lexeme
  | .atom a => [a.lexeme]
  | .schema s => s.lexemes

def Alternative.joinedLexemes : List Alternative → List Lexeme
  | [] => []
  | [only] => only.lexemes
  | first :: others => first.lexemes ++ .symbol .bar :: Alternative.joinedLexemes others

end

theorem Schema.text_list (item : Schema) :
    (Schema.list item).text =
      if item.isGrouped then "(" ++ (item.text ++ ")[]") else item.text ++ "[]" := by
  unfold Schema.isGrouped
  split
  · rw [Schema.text, Schema.text]
    rfl
  · next hPlain =>
      rw [Schema.text]
      · rfl
      · intro a b rest hGrouped
        exact hPlain a b rest hGrouped

theorem Atom.text_lexeme (a : Atom) : a.lexeme.text = a.text := by
  cases a <;> rfl

mutual

theorem Schema.written_lexemes : (s : Schema) → written s.lexemes = s.text.toList
  | .choice alternatives => by
      rw [Schema.lexemes, Schema.text, Alternative.written_joinedLexemes alternatives]
  | .list item => by
      rw [Schema.lexemes, Schema.text_list, written_append]
      have hItem := Schema.written_lexemes item
      cases item.isGrouped with
      | true =>
          simp [inGroup, hItem, Lexeme.text, Symbol.text]
      | false =>
          simp [inGroup, hItem, Lexeme.text, Symbol.text]
  | .pair left right => by
      have hLeft := Schema.written_lexemes left
      have hRight := Schema.written_lexemes right
      simp [Schema.lexemes, Schema.text, hLeft, hRight, Lexeme.text, Symbol.text]

theorem Alternative.written_lexemes : (a : Alternative) → written a.lexemes = a.text.toList
  | .atom a => by simp [Alternative.lexemes, Alternative.text, Atom.text_lexeme]
  | .schema s => by
      rw [Alternative.lexemes, Alternative.text, Schema.written_lexemes s]

theorem Alternative.written_joinedLexemes : (as : List Alternative) →
    written (Alternative.joinedLexemes as) = (Alternative.joined as).toList
  | [] => rfl
  | [only] => by
      rw [Alternative.joinedLexemes, Alternative.joined, Alternative.written_lexemes only]
  | first :: second :: others => by
      have hFirst := Alternative.written_lexemes first
      have hOthers := Alternative.written_joinedLexemes (second :: others)
      rw [Alternative.joinedLexemes, Alternative.joined]
      · simp [hFirst, hOthers, Lexeme.text, Symbol.text]
      · simp
      · simp

end

/-- Lexemes that may stand after a name, a number or a dot. -/
structure Startable (ls : List Lexeme) : Prop where
  separated : Separated ls
  noDot : ∀ cs, written ls ≠ '.' :: cs

/-- Whether a text leaves a name or number before it as it is. -/
def Ends (cs : List Char) : Prop :=
  ∀ c ∈ cs.head?, isNameChar c = false

theorem Separated.symbol {s : Symbol} {ls : List Lexeme} (hNotDot : s ≠ .dot)
    (h : Separated ls) : Separated (.symbol s :: ls) := by
  refine ⟨trivial, ?_, h⟩
  cases s <;> simp_all [Lexeme.Continues]

theorem Startable.dot {ls : List Lexeme} (h : Startable ls) :
    Separated (.symbol .dot :: ls) := by
  refine ⟨trivial, ?_, h.separated⟩
  unfold Lexeme.Continues
  split
  · next hText => exact absurd hText (h.noDot _)
  all_goals simp_all

theorem Startable.opening {s : Symbol} {ls : List Lexeme} (hOpen : s = .groupOpen ∨ s = .treeOpen)
    (h : Separated ls) : Startable (.symbol s :: ls) := by
  rcases hOpen with rfl | rfl
  · exact ⟨h.symbol (by decide), fun cs hText => by cases hText⟩
  · exact ⟨h.symbol (by decide), fun cs hText => by cases hText⟩

/-- A word, which starts with a name character and takes in no others, may stand
after a dot. -/
theorem Startable.word {l : Lexeme} {rest : List Lexeme} (hFormed : l.WellFormed)
    (hStop : ¬ l.Continues (written rest))
    (hText : ∃ c cs, l.text.toList = c :: cs ∧ isNameChar c = true) (h : Separated rest) :
    Startable (l :: rest) := by
  refine ⟨⟨hFormed, hStop, h⟩, fun cs hDot => ?_⟩
  obtain ⟨c, cs', hCons, hName⟩ := hText
  rw [written_cons, hCons] at hDot
  obtain ⟨rfl, -⟩ := List.cons.inj hDot
  exact absurd hName (by decide)

theorem Ends.stops_integer {cs : List Char} (h : Ends cs) (n : UInt64) :
    ¬ (Lexeme.integer n).Continues cs := by
  cases cs with
  | nil => exact id
  | cons c cs =>
      intro hDigit
      have hName := isNameChar_of_isDigit hDigit
      rw [h c rfl] at hName
      cases hName

theorem Ends.stops_identifier {cs : List Char} (h : Ends cs) (name : String) :
    ¬ (Lexeme.identifier name).Continues cs := by
  cases cs with
  | nil => exact id
  | cons c cs =>
      intro hName
      change isNameChar c = true at hName
      rw [h c rfl] at hName
      cases hName

theorem Atom.startable {a : Atom} {rest : List Lexeme} (hName : (Alternative.atom a).ProperName)
    (hEnds : Ends (written rest)) (h : Separated rest) : Startable (a.lexeme :: rest) := by
  cases a with
  | named name =>
      exact .word hName (hEnds.stops_identifier name) (Lexeme.identifier_eq_cons hName) h
  | number n => exact .word trivial (hEnds.stops_integer n) (Lexeme.integer_eq_cons n) h

mutual

theorem Schema.startable : (s : Schema) → s.Writable → {rest : List Lexeme} →
    Separated rest → Ends (written rest) → Startable (s.lexemes ++ rest)
  | .choice alternatives, hWritable, rest, hRest, hEnds => by
      obtain ⟨hChoice, hAll⟩ := hWritable
      exact Alternative.startable_joined alternatives hChoice.nonempty hChoice.names hAll hRest
        hEnds
  | .list item, hWritable, rest, hRest, hEnds => by
      have hSuffix : Separated (.symbol .listOpen :: .symbol .listClose :: rest) :=
        (hRest.symbol (by decide)).symbol (by decide)
      have hEndsSuffix : Ends (written (.symbol .listOpen :: .symbol .listClose :: rest)) := by
        rintro c ⟨⟩
        decide
      rw [Schema.lexemes, List.append_assoc]
      cases item.isGrouped with
      | false => exact Schema.startable item hWritable hSuffix hEndsSuffix
      | true =>
          have hClosed : Separated
              (.symbol .groupClose :: .symbol .listOpen :: .symbol .listClose :: rest) :=
            hSuffix.symbol (by decide)
          have hInside := Schema.startable item hWritable hClosed (by rintro c ⟨⟩; decide)
          simpa [inGroup] using Startable.opening (.inl rfl) hInside.separated
  | .pair left right, ⟨hLeft, hRight⟩, rest, hRest, hEnds => by
      have hClose : Separated (.symbol .treeClose :: rest) := hRest.symbol (by decide)
      have hAfter := Schema.startable right hRight hClose (by rintro c ⟨⟩; decide)
      have hBefore := Schema.startable left hLeft hAfter.dot (by rintro c ⟨⟩; decide)
      simpa [Schema.lexemes] using Startable.opening (.inr rfl) hBefore.separated

theorem Alternative.startable : (a : Alternative) → a.ProperName →
    a.Everywhere WritableChoice → {rest : List Lexeme} → Separated rest → Ends (written rest) →
    Startable (a.lexemes ++ rest)
  | .atom _, hName, _, _, hRest, hEnds => Atom.startable hName hEnds hRest
  | .schema s, _, hWritable, _, hRest, hEnds => Schema.startable s hWritable hRest hEnds

theorem Alternative.startable_joined : (as : List Alternative) → as ≠ [] →
    (∀ a ∈ as, a.ProperName) → Alternative.AllEverywhere WritableChoice as →
    {rest : List Lexeme} → Separated rest → Ends (written rest) →
    Startable (Alternative.joinedLexemes as ++ rest)
  | [], hNonempty, _, _, _, _, _ => absurd rfl hNonempty
  | [only], _, hNames, hAll, _, hRest, hEnds =>
      Alternative.startable only (hNames only List.mem_cons_self) hAll.1 hRest hEnds
  | first :: second :: others, _, hNames, hAll, rest, hRest, hEnds => by
      rw [List.forall_mem_cons] at hNames
      have hOthers := Alternative.startable_joined (second :: others) (by simp) hNames.2 hAll.2
        hRest hEnds
      have hBar : Separated
          (.symbol .bar :: (Alternative.joinedLexemes (second :: others) ++ rest)) :=
        hOthers.separated.symbol (by decide)
      have hFirst := Alternative.startable first hNames.1 hAll.1 hBar (by rintro c ⟨⟩; decide)
      rw [Alternative.joinedLexemes]
      · simpa using hFirst
      · simp

end

/-- The written form of a writable schema is read into the lexemes it consists of. -/
theorem Schema.tokens_text {s : Schema} (h : s.Writable) :
    tokens s.text = .ok (placed 0 s.lexemes) := by
  have hNone : Separated [] := trivial
  have hStartable := s.startable h hNone (by rintro c ⟨⟩)
  rw [List.append_nil] at hStartable
  rw [tokens, ← Schema.written_lexemes, tokensFrom_written 0 _ hStartable.separated]

end TreeSchema
