/-! Schemas: what a type description says about a tree. -/
namespace TreeSchema

/-- The smallest schemas. -/
inductive Atom where
  /-- A built-in type, or a type that is defined elsewhere. -/
  | named (name : String)
  /-- Exactly this number. -/
  | number (n : UInt64)
  deriving DecidableEq, Repr

mutual

/-- A set of trees and a way to decode its members. -/
inductive Schema where
  /-- The first alternative that fits decides; repetitions are kept. -/
  | choice (alternatives : List Alternative)
  /-- Any number of items, on a right spine that ends in `nil`. -/
  | list (item : Schema)
  /-- A node whose children fit the two schemas. -/
  | pair (left right : Schema)

inductive Alternative where
  | atom (a : Atom)
  | schema (s : Schema)

end

instance : Inhabited Schema := ⟨.choice []⟩
instance : Inhabited Alternative := ⟨.schema default⟩

mutual

def Schema.beq : Schema → Schema → Bool
  | .choice as, .choice bs => Alternative.beqList as bs
  | .list s, .list t => s.beq t
  | .pair l r, .pair l' r' => l.beq l' && r.beq r'
  | _, _ => false

def Alternative.beq : Alternative → Alternative → Bool
  | .atom a, .atom b => a == b
  | .schema s, .schema t => s.beq t
  | _, _ => false

/-- Whether two lists of alternatives are written alike. -/
def Alternative.beqList : List Alternative → List Alternative → Bool
  | [], [] => true
  | a :: as, b :: bs => a.beq b && Alternative.beqList as bs
  | _, _ => false

end

mutual

theorem Schema.beq_iff : (s t : Schema) → (s.beq t = true ↔ s = t)
  | .choice as, .choice bs => by simp [Schema.beq, Alternative.beqList_iff as bs]
  | .list s, .list t => by simp [Schema.beq, Schema.beq_iff s t]
  | .pair l r, .pair l' r' => by simp [Schema.beq, Schema.beq_iff l l', Schema.beq_iff r r']
  | .choice _, .list _ | .choice _, .pair .. | .list _, .choice _ | .list _, .pair ..
  | .pair .., .choice _ | .pair .., .list _ => by simp [Schema.beq]

theorem Alternative.beq_iff : (a b : Alternative) → (a.beq b = true ↔ a = b)
  | .atom a, .atom b => by simp [Alternative.beq]
  | .schema s, .schema t => by simp [Alternative.beq, Schema.beq_iff s t]
  | .atom _, .schema _ | .schema _, .atom _ => by simp [Alternative.beq]

theorem Alternative.beqList_iff : (as bs : List Alternative) →
    (Alternative.beqList as bs = true ↔ as = bs)
  | [], [] => by simp [Alternative.beqList]
  | a :: as, b :: bs => by
      simp [Alternative.beqList, Alternative.beq_iff a b, Alternative.beqList_iff as bs]
  | [], _ :: _ | _ :: _, [] => by simp [Alternative.beqList]

end

instance : DecidableEq Schema := fun s t => decidable_of_iff _ (Schema.beq_iff s t)
instance : DecidableEq Alternative := fun a b => decidable_of_iff _ (Alternative.beq_iff a b)

namespace Schema

def named (name : String) : Schema :=
  choice [.atom (.named name)]

def any : Schema :=
  named "any"

end Schema

/-- The members that an alternative adds to a choice: a choice adds its own. -/
def Alternative.members : Alternative → List Alternative
  | .schema (.choice inner) => inner
  | other => [other]

namespace Schema

/-- The choice between alternatives. Choices among them are spliced in, one level
deep, and a single schema is not wrapped in a choice of one. -/
def oneOf (alternatives : List Alternative) : Schema :=
  match alternatives.flatMap Alternative.members with
  | [.schema only] => only
  | members => choice members

/-- A schema as a member of a choice: a choice of one gives up its member. -/
def toAlternative : Schema → Alternative
  | choice [only] => only
  | other => .schema other

/-- A list of fixed items followed by a tail. -/
def items (first : List Schema) (tail : Schema) : Schema :=
  first.foldr pair tail

end Schema

end TreeSchema
