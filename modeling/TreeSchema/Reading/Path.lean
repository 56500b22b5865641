import TreeSchema.Reading.Basic

/-! Paths into a reading, and the mismatches found along them. -/
namespace TreeSchema

/-- From a node to one right below it. -/
inductive Step where
  | left
  | right
  /-- Counted from zero. -/
  | item (index : Nat)
  deriving DecidableEq, Repr

def Step.text : Step → String
  | left => ".left"
  | right => ".right"
  | item index => s!"[{index}]"

/-- The steps from the topmost node down to another. -/
abbrev Path := List Step

/-- Paths are written from `$`, the topmost node. -/
def Path.text (path : Path) : String :=
  path.foldl (fun written step => written ++ step.text) "$"

/-- A mismatch and the node on which it is noted. -/
structure NodeError where
  path : Path
  mismatch : Mismatch
  deriving DecidableEq

namespace NodeError

def message (e : NodeError) : String :=
  e.mismatch.message

/-- The same error, seen from one step above. -/
def below (step : Step) (e : NodeError) : NodeError :=
  { e with path := step :: e.path }

def text (e : NodeError) : String :=
  s!"{e.path.text}: {e.message}"

end NodeError

/-- The error noted by some remarks on the topmost node. -/
def Remarks.errors (remarks : Remarks) : List NodeError :=
  remarks.mismatch.toList.map (NodeError.mk [])

namespace Reading

mutual

/-- Every error in a reading: a node before those below it, left before right,
items in their order. -/
def errors : Reading → List NodeError
  | value _ remarks => remarks.errors
  | pair left right remarks =>
      remarks.errors ++ (left.errors.map (.below .left) ++ right.errors.map (.below .right))
  | list items remarks => remarks.errors ++ itemErrors 0 items

/-- The errors in items that are numbered from `index` on. -/
def itemErrors (index : Nat) : List Reading → List NodeError
  | [] => []
  | item :: items => item.errors.map (.below (.item index)) ++ itemErrors (index + 1) items

end

end Reading

end TreeSchema
