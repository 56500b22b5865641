/-! Texts that are read and may have errors in them. -/
namespace TreeSchema

/-- A text and the name under which errors in it are shown. -/
structure Source where
  name : String
  text : String
  deriving DecidableEq, Repr

end TreeSchema
