import TreeSchema.Schema.Basic

/-! The written form of a schema. -/
namespace TreeSchema

def Atom.text : Atom → String
  | .named name => name
  | .number n => toString n.toNat

mutual

/-- A choice of several is put in parentheses where a list suffix follows it;
elsewhere the brackets of the surrounding form are enough. -/
def Schema.text : Schema → String
  | .choice alternatives => Alternative.joined alternatives
  | .list (.choice (a :: b :: rest)) => "(" ++ (Alternative.joined (a :: b :: rest) ++ ")[]")
  | .list item => item.text ++ "[]"
  | .pair left right => "<" ++ (left.text ++ ("." ++ (right.text ++ ">")))

def Alternative.text : Alternative → String
  | .atom a => a.text
  | .schema s => s.text

/-- Alternatives with bars between them. -/
def Alternative.joined : List Alternative → String
  | [] => ""
  | [only] => only.text
  | first :: others => first.text ++ ("|" ++ Alternative.joined others)

end

end TreeSchema
