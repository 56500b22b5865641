import TreeSchema.Tree.Basic

/-! The height of a tree: how many pairs lie above each other in it. -/
namespace TreeSchema.Tree

def height : Tree → Nat
  | nil => 0
  | node left right => max left.height right.height + 1

theorem height_left_lt (left right : Tree) : left.height < (node left right).height :=
  Nat.lt_succ_of_le (Nat.le_max_left ..)

theorem height_right_lt (left right : Tree) : right.height < (node left right).height :=
  Nat.lt_succ_of_le (Nat.le_max_right ..)

theorem height_lt_of_mem_items {t item : Tree} (h : item ∈ t.items) : item.height < t.height := by
  induction t with
  | nil => cases h
  | node left right _ ih =>
      rcases List.mem_cons.mp h with rfl | hLater
      · exact height_left_lt item right
      · exact Nat.lt_trans (ih hLater) (height_right_lt left right)

end TreeSchema.Tree
