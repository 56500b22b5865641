import TreeSchema.Reading.Basic

/-! The written form of a reading, which leaves out all remarks. -/
namespace TreeSchema

def Value.text : Value → String
  | nil => "nil"
  | number n => toString n.toNat
  | boolean b => toString b

namespace Reading

mutual

/-- Append the form of a reading to `written`. -/
def writeOnto (written : String) : Reading → String
  | value v _ => written ++ v.text
  | pair left right _ =>
      (writeOnto ((writeOnto (written.push '<') left).push '.') right).push '>'
  | list [] _ => written ++ "[]"
  | list (first :: others) _ =>
      (writeRest (writeOnto (written.push '[') first) others).push ']'

/-- Append the forms of further items, each after a comma. -/
def writeRest (written : String) : List Reading → String
  | [] => written
  | item :: others => writeRest (writeOnto (written.push ',') item) others

end

def text (r : Reading) : String :=
  writeOnto "" r

end Reading

end TreeSchema
