import TreeSchema.Span

/-! The tokens of a type description. -/
namespace TreeSchema

inductive Symbol where
  | treeOpen
  | treeClose
  | listOpen
  | listClose
  | groupOpen
  | groupClose
  | bar
  | dot
  | dots
  | comma
  | colon
  deriving DecidableEq, Repr

def Symbol.text : Symbol → String
  | .treeOpen => "<"
  | .treeClose => ">"
  | .listOpen => "["
  | .listClose => "]"
  | .groupOpen => "("
  | .groupClose => ")"
  | .bar => "|"
  | .dot => "."
  | .dots => "..."
  | .comma => ","
  | .colon => ":"

/-- What a token says, wherever it stands. -/
inductive Lexeme where
  | symbol (s : Symbol)
  | integer (n : UInt64)
  | identifier (name : String)
  deriving DecidableEq, Repr

namespace Lexeme

def text : Lexeme → String
  | symbol s => s.text
  | integer n => toString n.toNat
  | identifier name => name

/-- How a lexeme is called in a list of what was expected. -/
def describe : Lexeme → String
  | symbol s => s.text
  | integer _ => "integer"
  | identifier _ => "identifier"

end Lexeme

structure Token where
  lexeme : Lexeme
  span : Span
  deriving DecidableEq, Repr

end TreeSchema
