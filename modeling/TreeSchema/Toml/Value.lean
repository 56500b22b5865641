/-! The values of a TOML document. -/
namespace TreeSchema.Toml

/-- A value. Numbers that are not integers, and dates and times, are kept as
they are written: nothing here computes with them. -/
inductive Value where
  | text (s : String)
  | integer (n : Int)
  | float (written : String)
  | boolean (b : Bool)
  /-- A date, a time of day, or both. -/
  | moment (written : String)
  | array (items : List Value)
  | table (entries : List (String × Value))
  deriving Inhabited

/-- Values by distinct names. -/
abbrev Table := List (String × Value)

namespace Value

def text? : Value → Option String
  | text s => some s
  | _ => none

def boolean? : Value → Option Bool
  | boolean b => some b
  | _ => none

def texts? : Value → Option (List String)
  | array items => items.mapM text?
  | _ => none

/-- The name under which a moment is found in the table that it is taken for. -/
def momentName : String := "$moment"

/-- The texts of a table of texts. A moment counts as a table of one text. -/
def namedTexts? : Value → Option (List (String × String))
  | table entries => entries.mapM fun (name, value) => value.text?.map (Prod.mk name)
  | moment written => some [(momentName, written)]
  | _ => none

end Value

end TreeSchema.Toml
