/-! Plain binary trees, and the numbers, booleans and lists among them. -/
namespace TreeSchema

/-- A binary tree carries no data: it is `nil`, or a pair of trees. -/
inductive Tree where
  | nil
  | node (left right : Tree)
  deriving DecidableEq, Repr, Inhabited

namespace Tree

/-- The number `n` is a right spine of `n` nodes with `nil` on every left. -/
def ofNat (n : Nat) : Tree :=
  n.repeat (node nil) nil

/-- A list ends in `nil` and has its items on the left of its right spine. -/
def ofList (items : List Tree) : Tree :=
  items.foldr node nil

/-- `nil` stands for false, the node of two `nil`s for true. -/
def ofBool : Bool → Tree
  | false => nil
  | true => node nil nil

/-- The left children along the right spine. Every tree is the list of these. -/
def items : Tree → List Tree
  | nil => []
  | node left right => left :: right.items

/-- The number of nodes on the right spine, added to `counted`, if every left
child on it is `nil`. -/
def count? (counted : Nat) : Tree → Option Nat
  | nil => some counted
  | node nil right => right.count? (counted + 1)
  | node (node ..) _ => none

/-- The number that a tree is, if it is one and fits in 64 bits. -/
def number? (t : Tree) : Option UInt64 := do
  let n ← t.count? 0
  if fits : n < UInt64.size then some (UInt64.ofNatLT n fits) else none

/-- The boolean that a tree is, if it is one. -/
def bool? : Tree → Option Bool
  | nil => some false
  | node nil nil => some true
  | _ => none

def children? : Tree → Option (Tree × Tree)
  | nil => none
  | node left right => some (left, right)

@[simp] theorem ofList_items (t : Tree) : ofList t.items = t := by
  induction t with
  | nil => rfl
  | node left right _ ih => simpa [items, ofList] using ih

@[simp] theorem items_ofList (ts : List Tree) : (ofList ts).items = ts := by
  induction ts with
  | nil => rfl
  | cons t ts ih => simpa [items, ofList] using ih

theorem sizeOf_lt_of_mem_items {t item : Tree} (h : item ∈ t.items) : sizeOf item < sizeOf t := by
  induction t with
  | nil => simp [items] at h
  | node left right _ ih =>
      rw [node.sizeOf_spec]
      rcases List.mem_cons.mp h with rfl | h
      · omega
      · have := ih h
        omega

end Tree

end TreeSchema
