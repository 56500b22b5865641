import TreeSchema.Toml.Token

/-! Tokens with the brackets matched. -/
namespace TreeSchema.Toml

inductive Group where
  | token (t : Token)
  | bracket (b : Bracket) (inside : List Group)

namespace Group

/-- The open brackets, each with what stands before it, innermost first, and
what stands inside the innermost. Groups are listed last first. -/
structure Nesting where
  around : List (Bracket × List Group)
  inside : List Group

def Nesting.step (n : Nesting) : Token → Option Nesting
  | .opening b => some ⟨(b, n.inside) :: n.around, []⟩
  | .closing b =>
      match n.around with
      | (opened, before) :: around =>
          if opened = b then some ⟨around, bracket b n.inside.reverse :: before⟩ else none
      | [] => none
  | t => some { n with inside := token t :: n.inside }

def ofTokens? (ts : List Token) : Option (List Group) := do
  match ← ts.foldlM Nesting.step ⟨[], []⟩ with
  | ⟨[], inside⟩ => return inside.reverse
  | _ => none

/-- The tokens of groups without brackets. -/
def tokens? (groups : List Group) : Option (List Token) :=
  groups.mapM fun
    | token t => some t
    | bracket .. => none

def isBlank : Group → Bool
  | token (.blank _) => true
  | _ => false

def isLineEnd : Group → Bool
  | token .lineEnd => true
  | _ => false

end Group

end TreeSchema.Toml
