import TreeSchema.Schema.Basic
import TreeSchema.Token.Scan

/-! Reading a type description into a schema. The reader takes one token at a
time and never looks ahead; what is open around its place is kept on a list, so
the state after some tokens says everything about what may follow them. -/
namespace TreeSchema.Description

/-- How many levels of brackets, list suffixes and list items may be nested. -/
def maxNesting : Nat := 256

/-- A bracket whose inside is being read. -/
inductive Bracket where
  /-- After `(`. -/
  | group
  /-- After `<`. -/
  | left
  /-- After the dot of a pair whose left side is known. -/
  | right (left : Schema)
  /-- In an item of a fixed list, after the items `before`, last first. -/
  | items (before : List Schema)

/-- The levels of nesting that a bracket adds to its inside. Each item of a fixed
list stands one level below the item before it. -/
def Bracket.depth : Bracket → Nat
  | items before => before.length + 1
  | _ => 1

/-- What may follow a complete choice inside a bracket. -/
def Bracket.followers : Bracket → List Symbol
  | group => [.groupClose]
  | left => [.dot]
  | right _ => [.treeClose]
  | items _ => [.comma, .listClose]

/-- An open bracket, and the alternatives that stand before it in its own choice,
last first. -/
structure Level where
  bracket : Bracket
  earlier : List Alternative

/-- The kind of place that the reader has come to. -/
inductive Place where
  /-- An atom must start, after some alternatives of the same choice. -/
  | atom (earlier : List Alternative)
  /-- An item or the end of a fixed list that is itself an atom after `outer`. -/
  | item (before : List Schema) (outer : List Alternative)
  /-- After the dots of a fixed list. -/
  | tail (before : List Schema) (outer : List Alternative)
  /-- After an atom and some list suffixes, which are already part of `core`. -/
  | after (earlier : List Alternative) (core : Schema) (suffixes : Nat)
  /-- After the opening bracket of one more suffix. -/
  | suffix (earlier : List Alternative) (core : Schema) (suffixes : Nat) (opened : Span)

/-- How far the reading has come: the open brackets, innermost first, and the
place inside the innermost. -/
structure Progress where
  levels : List Level
  place : Place

namespace Progress

def start : Progress :=
  ⟨[], .atom []⟩

/-- How many levels are open. -/
def depth : List Level → Nat
  | [] => 0
  | level :: levels => level.bracket.depth + depth levels

/-- What may start an atom, in the order in which it is listed. -/
def atomStart : List String :=
  ["identifier", "integer", "(", "<", "["]

/-- The tokens that are expected next. After a complete description there are none. -/
def expected : Progress → List String
  | ⟨_, .atom _⟩ | ⟨_, .item ..⟩ => atomStart
  | ⟨_, .tail ..⟩ | ⟨_, .suffix ..⟩ => [Symbol.listClose.text]
  | ⟨level :: _, .after ..⟩ => level.bracket.followers.map Symbol.text
  | ⟨[], .after ..⟩ => []

def unexpected (p : Progress) (t : Token) : SyntaxError where
  cause := .unexpected t.lexeme.text p.expected
  span := t.span

def tooDeep (span : Span) : SyntaxError where
  cause := .tooDeep
  span
  notes := [s!"at most {maxNesting} levels of nesting are allowed"]

/-- Go on at `inside`, where one more bracket of the levels has been opened by `t`. -/
def enter (levels : List Level) (t : Token) (inside : Progress) : Except SyntaxError Progress :=
  if maxNesting ≤ depth levels then .error (tooDeep t.span) else .ok inside

def stepAtom (levels : List Level) (earlier : List Alternative) (t : Token) :
    Except SyntaxError Progress :=
  match t.lexeme with
  | .identifier name => .ok ⟨levels, .after earlier (.named name) 0⟩
  | .integer n => .ok ⟨levels, .after earlier (.choice [.atom (.number n)]) 0⟩
  | .symbol .groupOpen => enter levels t ⟨⟨.group, earlier⟩ :: levels, .atom []⟩
  | .symbol .treeOpen => enter levels t ⟨⟨.left, earlier⟩ :: levels, .atom []⟩
  | .symbol .listOpen => enter levels t ⟨levels, .item [] earlier⟩
  | .symbol _ => .error (unexpected ⟨levels, .atom earlier⟩ t)

/-- Whether one more item would stand too deep. -/
def itemTooDeep (levels : List Level) (before : List Schema) : Bool :=
  maxNesting < depth levels + before.length + 2

/-- Read a token where an item of a fixed list may start. -/
def stepItem (levels : List Level) (before : List Schema) (outer : List Alternative) (t : Token) :
    Except SyntaxError Progress :=
  match t.lexeme, before with
  | .symbol .dots, _ => .ok ⟨levels, .tail before outer⟩
  | .symbol .listClose, [] => .ok ⟨levels, .after outer (.named "nil") 0⟩
  | _, _ =>
      if itemTooDeep levels before then .error (tooDeep t.span)
      else stepAtom (⟨.items before, outer⟩ :: levels) [] t

/-- The choice that ends with `core`. -/
def completed (earlier : List Alternative) (core : Schema) : Schema :=
  .oneOf (core.toAlternative :: earlier).reverse

/-- Read a token that follows the complete choice `inside` of the innermost bracket. -/
def stepBracket (level : Level) (levels : List Level) (inside : Schema) :
    Symbol → Option Progress
  | .groupClose =>
      match level.bracket with
      | .group => some ⟨levels, .after level.earlier inside 0⟩
      | _ => none
  | .dot =>
      match level.bracket with
      | .left => some ⟨⟨.right inside, level.earlier⟩ :: levels, .atom []⟩
      | _ => none
  | .treeClose =>
      match level.bracket with
      | .right left => some ⟨levels, .after level.earlier (.pair left inside) 0⟩
      | _ => none
  | .comma =>
      match level.bracket with
      | .items before => some ⟨levels, .item (inside :: before) level.earlier⟩
      | _ => none
  | .listClose =>
      match level.bracket with
      | .items before =>
          some ⟨levels, .after level.earlier (.items (inside :: before).reverse (.named "nil")) 0⟩
      | _ => none
  | _ => none

def step (p : Progress) (t : Token) : Except SyntaxError Progress :=
  match p.place, t.lexeme with
  | .atom earlier, _ => stepAtom p.levels earlier t
  | .item before outer, _ => stepItem p.levels before outer t
  | .tail before outer, .symbol .listClose =>
      .ok ⟨p.levels, .after outer (.items before.reverse .any) 0⟩
  | .suffix earlier core suffixes opened, .symbol .listClose =>
      if maxNesting < depth p.levels + (suffixes + 1) then .error (tooDeep opened)
      else .ok ⟨p.levels, .after earlier (.list core) (suffixes + 1)⟩
  | .after earlier core suffixes, .symbol .listOpen =>
      .ok ⟨p.levels, .suffix earlier core suffixes t.span⟩
  | .after earlier core _, .symbol .bar => .ok ⟨p.levels, .atom (core.toAlternative :: earlier)⟩
  | .after earlier core _, .symbol s =>
      match p.levels with
      | level :: levels =>
          (stepBracket level levels (completed earlier core) s).elim (.error (p.unexpected t)) .ok
      | [] => .error (p.unexpected t)
  | _, _ => .error (p.unexpected t)

/-- The schema that was read, when the description ends at byte `size`. -/
def finish (size : Nat) (p : Progress) : Except SyntaxError Schema :=
  match p with
  | ⟨[], .after earlier core _⟩ => .ok (completed earlier core)
  | ⟨levels, .item before _⟩ =>
      if itemTooDeep levels before then .error (tooDeep (.empty size))
      else .error { cause := .ended p.expected, span := .empty size }
  | _ => .error { cause := .ended p.expected, span := .empty size }

end Progress

/-- Where the last of some tokens ends. -/
def endOf (ts : List Token) : Nat :=
  (ts.getLast?.map (·.span.stop)).getD 0

/-- Read the tokens of a description. No tokens at all describe every tree. -/
def read : List Token → Except SyntaxError Schema
  | [] => .ok .any
  | ts => do (← ts.foldlM Progress.step .start).finish (endOf ts)

end TreeSchema.Description

namespace TreeSchema.Schema

def ofText (text : String) : Except SyntaxError Schema := do
  Description.read (← tokens text)

/-- The schema of a text among several; errors say which text they are in. -/
def ofSource (text : String) (source : Nat) : Except SyntaxError Schema :=
  (ofText text).mapError (·.inSource source)

end TreeSchema.Schema
