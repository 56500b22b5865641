import TreeSchema.Text.Split
import TreeSchema.Toml.Assembly
import TreeSchema.Toml.Group
import TreeSchema.Toml.Scalar

/-! Reading a TOML document. Brackets are matched before anything else is looked
at, so a line of a document is the groups up to a line end outside all brackets. -/
namespace TreeSchema.Toml

open Text (pieces trimBy)

/-- Keys have fewer names than this, and values fewer brackets around them. -/
def maxNesting : Nat := 80

/-- A key: the tables that lead to a value, and the name of the value there. -/
structure Key where
  path : List String
  name : String
  deriving DecidableEq, Repr

namespace Key

/-- A name in a key, bare or in single quotation marks of either kind. -/
def name? (ts : List Token) : Option String :=
  match trimBy (· matches .blank _) ts with
  | [.word written] => some (String.ofList written)
  | [.quoted content false] => some content
  | _ => none

/-- The key that some tokens write, with dots between its names. -/
def ofTokens? (ts : List Token) : Option Key := do
  let names ← (pieces (· = .mark '.') ts).mapM name?
  if names.length < maxNesting then
    return ⟨names.dropLast, ← names.getLast?⟩
  else none

end Key

/-- A piece of a line: a token, or the value between two brackets. -/
inductive Part where
  | token (t : Token)
  | value (v : Value)

namespace Part

def isBlank : Part → Bool
  | token (.blank _) => true
  | _ => false

def isLineEnd : Part → Bool
  | token .lineEnd => true
  | _ => false

def isMark (c : Char) : Part → Bool
  | token (.mark c') => c = c'
  | _ => false

def token? : Part → Option Token
  | token t => some t
  | value _ => none

/-- What a part contributes to a word. -/
def written? : Part → Option (List Char)
  | token (.blank written) | token (.word written) => some written
  | token (.mark c) => some [c]
  | _ => none

end Part

/-- The value that some parts write. Only a word may consist of several. -/
def Value.ofParts? (parts : List Part) : Option Value :=
  match trimBy Part.isBlank parts with
  | [.value v] => some v
  | [.token (.quoted content _)] => some (.text content)
  | parts => (parts.mapM Part.written?).bind fun written => ofWord written.flatten

/-- The items of an array. Line ends may stand around them, and a comma after the last. -/
def Value.arrayOf? (parts : List Part) : Option Value :=
  let items := (pieces (Part.isMark ',') parts).map (trimBy fun p => p.isBlank || p.isLineEnd)
  let items := if items.getLast?.any List.isEmpty then items.dropLast else items
  (items.mapM ofParts?).map .array

structure Assignment where
  key : Key
  value : Value

namespace Assignment

def ofParts? (parts : List Part) : Option Assignment :=
  match parts.span (!·.isMark '=') with
  | (key, _ :: value) => do
      return ⟨← Key.ofTokens? (← key.mapM Part.token?), ← Value.ofParts? value⟩
  | (_, []) => none

def apply (a : Assignment) (items : Items) : Option Items :=
  items.put a.key.name a.value a.key.path true

end Assignment

/-- A table on a single line. -/
def Value.tableOf? (parts : List Part) : Option Value :=
  if parts.all Part.isBlank then some (.table [])
  else do
    let assignments ← (pieces (Part.isMark ',') parts).mapM Assignment.ofParts?
    return .table (Items.toTable (← assignments.foldlM (fun items a => a.apply items) []))

mutual

/-- Read the values in brackets, of which at most `levels` stand around one another. -/
def Group.part? (levels : Nat) : Group → Option Part
  | .token t => some (.token t)
  | .bracket b inside =>
      match levels with
      | 0 => none
      | levels + 1 =>
          (Group.parts? levels inside).bind fun parts =>
            match b with
            | .square => (Value.arrayOf? parts).map .value
            | .curly => (Value.tableOf? parts).map .value

def Group.parts? (levels : Nat) : List Group → Option (List Part)
  | [] => some []
  | first :: others =>
      (first.part? levels).bind fun part => (Group.parts? levels others).map (part :: ·)

end

/-- A line that is not blank. -/
inductive Line where
  /-- What follows belongs to this table. -/
  | table (key : Key)
  /-- What follows belongs to one more table of this array. -/
  | element (key : Key)
  | assignment (a : Assignment)

/-- Read a line. The brackets of a header are not those of a value. -/
def Line.ofGroups? (groups : List Group) : Option (Option Line) :=
  match trimBy Group.isBlank groups with
  | [] => some none
  | .bracket .square inside :: others =>
      if !others.isEmpty then none
      else
        match inside with
        | [.bracket .square inside] => do
            return some (.element (← Key.ofTokens? (← Group.tokens? inside)))
        | inside => do return some (.table (← Key.ofTokens? (← Group.tokens? inside)))
  | groups => do
      return some (.assignment (← Assignment.ofParts? (← Group.parts? (maxNesting - 1) groups)))

/-- A document as far as it has been read, and the table that assignments go to. -/
structure Draft where
  items : Items
  current : List String

/-- Add a line to a document. -/
def Draft.add (draft : Draft) : Line → Option Draft
  | .table key => do
      return ⟨← draft.items.within (Items.define key.name) key.path, key.path ++ [key.name]⟩
  | .element key => do
      return ⟨← draft.items.within (Items.append key.name) key.path, key.path ++ [key.name]⟩
  | .assignment a => do
      return { draft with items := ← draft.items.within a.apply draft.current }

/-- The table that a document writes. A byte order mark may stand in front of it. -/
def Table.ofText? (text : String) : Option Table := do
  let cs := text.toList
  let cs ← lineFeeds (if cs.head? = some '\ufeff' then cs.tail else cs)
  let groups ← Group.ofTokens? (← Token.all? cs)
  let lines ← (pieces Group.isLineEnd groups).mapM Line.ofGroups?
  let draft ← (lines.filterMap id).foldlM Draft.add ⟨[], []⟩
  return Items.toTable draft.items

end TreeSchema.Toml
