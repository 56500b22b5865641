import TreeSchema.Span

/-! Why a text could not be read. An error names its cause; the wording is made
from the cause in one place. -/
namespace TreeSchema

namespace SyntaxError

/-- What is wrong at the span of an error. -/
inductive Cause where
  /-- No token starts with this character, or the token that does is out of range. -/
  | stray (found : Char)
  /-- Something other than the four marks of a written tree. -/
  | unrecognised
  /-- Something stands where one of the listed things should; an empty list
  says that nothing may stand here. -/
  | unexpected (found : String) (expected : List String)
  /-- The text ends where one of the listed things should follow. -/
  | ended (expected : List String)
  /-- The text is complete, and something follows it. -/
  | trailing (found : String)
  /-- Brackets, suffixes and list items are nested beyond the limit. -/
  | tooDeep
  /-- Any other reason, in words. -/
  | other (message : String)
  deriving DecidableEq, Repr

/-- A list of names, each in quotation marks. -/
def quoted (names : List String) : String :=
  String.intercalate ", " (names.map fun name => s!"'{name}'")

/-- What is expected, as one name or a choice of several. -/
def expectation : List String → String
  | [name] => quoted [name]
  | names => "one of " ++ quoted names

/-- The wording of a cause at a byte position. -/
def Cause.message (position : Nat) : Cause → String
  | .stray found => s!"Unexpected token '{found}' at position {position}"
  | .unrecognised => s!"Unrecognised token at position {position}"
  | .unexpected found [] => s!"Unexpected token: '{found}'"
  | .unexpected found expected =>
      s!"Unexpected token: expected {expectation expected} got '{found}'"
  | .ended [] => "Unexpected end of input"
  | .ended expected => s!"Unexpected end of input: Expected {expectation expected}"
  | .trailing found => s!"Unexpected token: expected end of input got '{found}'"
  | .tooDeep => "Type nesting too deep"
  | .other message => message

/-- Names in quotation marks, with commas between them. -/
theorem quoted_cons (name : String) (names : List String) :
    quoted (name :: names) = "'" ++ String.intercalate "', '" (name :: names) ++ "'" := by
  induction names generalizing name with
  | nil => rfl
  | cons next names ih =>
      have hMarks : "'" ++ ", " ++ "'" = "', '" := by decide
      calc
        quoted (name :: next :: names) = "'" ++ name ++ "'" ++ ", " ++ quoted (next :: names) :=
          String.intercalate_cons_cons ..
        _ = "'" ++ (name ++ "', '" ++ String.intercalate "', '" (next :: names)) ++ "'" := by
          rw [ih, ← hMarks]
          simp only [String.append_assoc]
        _ = _ := by rw [String.intercalate_cons_cons]

theorem expectation_singleton (name : String) : expectation [name] = "'" ++ name ++ "'" := by
  rw [expectation, quoted_cons, String.intercalate_singleton]

theorem expectation_several (first second : String) (others : List String) :
    expectation (first :: second :: others) =
      "one of '" ++ String.intercalate "', '" (first :: second :: others) ++ "'" := by
  have hOpen : "one of " ++ "'" = "one of '" := by decide
  rw [expectation, quoted_cons, ← hOpen]
  · simp only [String.append_assoc]
  · simp

namespace Cause

/-! The wordings where nothing, one thing or several things are expected. -/

theorem message_unexpected_nil (found : String) (position : Nat) :
    (unexpected found []).message position = "Unexpected token: '" ++ found ++ "'" := rfl

theorem message_unexpected_cons (found name : String) (names : List String) (position : Nat) :
    (unexpected found (name :: names)).message position =
      "Unexpected token: expected " ++ expectation (name :: names) ++ " got '" ++ found ++ "'" :=
  rfl

theorem message_unexpected_singleton (found name : String) (position : Nat) :
    (unexpected found [name]).message position =
      "Unexpected token: expected '" ++ name ++ "' got '" ++ found ++ "'" := by
  have hOpen : "Unexpected token: expected " ++ "'" = "Unexpected token: expected '" := by decide
  have hClose : "'" ++ " got '" = "' got '" := by decide
  rw [message_unexpected_cons, expectation_singleton, ← hOpen, ← hClose]
  simp only [String.append_assoc]

theorem message_unexpected_several (found first second : String) (others : List String)
    (position : Nat) :
    (unexpected found (first :: second :: others)).message position =
      "Unexpected token: expected one of '" ++
        String.intercalate "', '" (first :: second :: others) ++ "' got '" ++ found ++ "'" := by
  have hOpen : "Unexpected token: expected " ++ "one of '" =
      "Unexpected token: expected one of '" := by decide
  have hClose : "'" ++ " got '" = "' got '" := by decide
  rw [message_unexpected_cons, expectation_several, ← hOpen, ← hClose]
  simp only [String.append_assoc]

theorem message_ended_nil (position : Nat) :
    (ended []).message position = "Unexpected end of input" := rfl

theorem message_ended_cons (name : String) (names : List String) (position : Nat) :
    (ended (name :: names)).message position =
      "Unexpected end of input: Expected " ++ expectation (name :: names) := rfl

theorem message_ended_singleton (name : String) (position : Nat) :
    (ended [name]).message position = "Unexpected end of input: Expected '" ++ name ++ "'" := by
  have hOpen : "Unexpected end of input: Expected " ++ "'" =
      "Unexpected end of input: Expected '" := by decide
  rw [message_ended_cons, expectation_singleton, ← hOpen]
  simp only [String.append_assoc]

theorem message_ended_several (first second : String) (others : List String) (position : Nat) :
    (ended (first :: second :: others)).message position =
      "Unexpected end of input: Expected one of '" ++
        String.intercalate "', '" (first :: second :: others) ++ "'" := by
  have hOpen : "Unexpected end of input: Expected " ++ "one of '" =
      "Unexpected end of input: Expected one of '" := by decide
  rw [message_ended_cons, expectation_several, ← hOpen]
  simp only [String.append_assoc]

end Cause

end SyntaxError

/-- Why a text could not be read, and where. -/
structure SyntaxError where
  cause : SyntaxError.Cause
  span : Span
  /-- The number of the text among those that are read together. -/
  source : Nat := 0
  /-- Remarks shown below the error. -/
  notes : List String := []
  deriving DecidableEq, Repr

namespace SyntaxError

def message (e : SyntaxError) : String :=
  e.cause.message e.span.start

/-- An error at a character that starts no token. -/
def ofChar (found : Char) (position : Nat) : SyntaxError where
  cause := .stray found
  span := .ofSize position found.utf8Size

def withNote (e : SyntaxError) (note : String) : SyntaxError :=
  { e with notes := e.notes ++ [note] }

/-- The same error, found in another text. -/
def inSource (e : SyntaxError) (source : Nat) : SyntaxError :=
  { e with source }

end SyntaxError

end TreeSchema
