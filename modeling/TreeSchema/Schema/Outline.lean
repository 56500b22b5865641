import TreeSchema.Schema.Basic

/-! The structure of a schema, set out on lines: one constructor or value on a
line, its parts below it and further in. -/
namespace TreeSchema

/-- Text in a layout that shows nesting by indentation. -/
inductive Outline where
  | leaf (text : String)
  /-- Parts between an opening and a closing text. -/
  | block (opening : String) (parts : List Outline) (closing : String)

namespace Outline

/-- How far a part stands in from what contains it. -/
def indentStep : String := "    "

mutual

/-- The layout of an outline whose later lines start with `indent`. -/
def text (indent : String) : Outline → String
  | leaf text => text
  | block opening [] closing => opening ++ closing
  | block opening parts closing =>
      opening ++ "\n" ++ texts (indent ++ indentStep) parts ++ indent ++ closing

/-- The layout of parts, each on lines of its own and followed by a comma. -/
def texts (indent : String) : List Outline → String
  | [] => ""
  | part :: parts => indent ++ part.text indent ++ ",\n" ++ texts indent parts

end

def apply (name : String) (parts : List Outline) : Outline :=
  block (name ++ "(") parts ")"

/-- Put a field's name before the first line. -/
def field (name : String) : Outline → Outline
  | leaf text => leaf (name ++ ": " ++ text)
  | block opening parts closing => block (name ++ ": " ++ opening) parts closing

end Outline

/-- The outline of an atom. Names in descriptions need no escapes. -/
def Atom.outline : Atom → Outline
  | .named name => .apply "Named" [.leaf ("\"" ++ name ++ "\"")]
  | .number n => .apply "Number" [.leaf (toString n.toNat)]

mutual

def Schema.outline : Schema → Outline
  | .choice alternatives => .apply "Choice" [.block "[" (Alternative.outlines alternatives) "]"]
  | .list item => .apply "List" [item.outline]
  | .pair left right =>
      .block "Tree \x7b" [left.outline.field "left", right.outline.field "right"] "\x7d"

def Alternative.outline : Alternative → Outline
  | .atom a => .apply "Atom" [a.outline]
  | .schema s => .apply "Type" [s.outline]

def Alternative.outlines : List Alternative → List Outline
  | [] => []
  | a :: as => a.outline :: Alternative.outlines as

end

/-- The outline of a schema as text, without a final newline. -/
def Schema.outlineText (s : Schema) : String :=
  s.outline.text ""

end TreeSchema
