import TreeSchema.Schema.Text
import TreeSchema.Tree.Basic

/-! What a tree is found to be when it is read by a schema. A node that does not
fit says why, and keeps the tree that stood there. -/
namespace TreeSchema

inductive Mismatch where
  | notNil
  | notNumber
  /-- A number, but not this one. -/
  | otherThan (n : UInt64)
  /-- Not this boolean. -/
  | notThe (b : Bool)
  | notBoolean
  | notPair
  | noneOf (alternatives : List Alternative)
  | unknown (name : String)
  /-- The name stands for itself without taking anything of the tree apart. -/
  | circular (name : String)
  /-- Any other reason, in words. -/
  | other (message : String)
  deriving DecidableEq

def Mismatch.message : Mismatch → String
  | notNil => "Expected nil"
  | notNumber => "Not a valid number"
  | otherThan n => s!"Expected {n.toNat}"
  | notThe b => s!"Expected {b}"
  | notBoolean => "Expected a boolean"
  | notPair => "Expected a tree, got nil"
  | noneOf alternatives =>
      "Node does not match any type of " ++
        String.intercalate ", " (alternatives.map fun a => "'" ++ a.text ++ "'")
  | unknown name => s!"Unknown type '{name}'"
  | circular name => s!"Recursive type '{name}'"
  | other message => message

/-- What is noted on a node of a reading. -/
structure Remarks where
  mismatch : Option Mismatch := none
  /-- The names through which the node was reached, outermost first. -/
  aliases : List String := []
  deriving DecidableEq

inductive Value where
  | nil
  | number (n : UInt64)
  | boolean (b : Bool)
  deriving DecidableEq, Repr

inductive Reading where
  | value (v : Value) (remarks : Remarks)
  | pair (left right : Reading) (remarks : Remarks)
  | list (items : List Reading) (remarks : Remarks)

namespace Reading

def ofValue (v : Value) : Reading :=
  value v {}

def ofPair (left right : Reading) : Reading :=
  pair left right {}

def ofItems (items : List Reading) : Reading :=
  list items {}

instance : Inhabited Reading := ⟨ofValue .nil⟩

/-- A tree as it stands: `nil` stays `nil`, and nodes become pairs. -/
def ofTree : Tree → Reading
  | .nil => ofValue .nil
  | .node left right => ofPair (ofTree left) (ofTree right)

def remarks : Reading → Remarks
  | value _ remarks | pair _ _ remarks | list _ remarks => remarks

/-- Change the remarks on the topmost node. -/
def remark (f : Remarks → Remarks) : Reading → Reading
  | value v remarks => value v (f remarks)
  | pair left right remarks => pair left right (f remarks)
  | list items remarks => list items (f remarks)

def withMismatch (r : Reading) (m : Mismatch) : Reading :=
  r.remark ({ · with mismatch := some m })

/-- Note that the node was reached through `name`, outside the names noted before. -/
def viaName (r : Reading) (name : String) : Reading :=
  r.remark fun remarks => { remarks with aliases := name :: remarks.aliases }

/-- The outermost name through which the node was reached. -/
def label? (r : Reading) : Option String :=
  r.remarks.aliases.head?

def isList : Reading → Bool
  | list .. => true
  | _ => false

end Reading

end TreeSchema
