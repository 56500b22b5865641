import TreeSchema.Reading.Path

/-! Where the paths into a reading lead. A path is followed step by step from the topmost
node; the errors of a reading are what the nodes at the ends of its paths are marked with. -/
namespace TreeSchema

/-- Of the steps from one node, those that are taken first in a walk over everything below. -/
inductive Step.Before : Step → Step → Prop where
  | children : Before .left .right
  | items {index later : Nat} (h : index < later) : Before (.item index) (.item later)

/-- The order in which a walk comes to nodes: to a node before those below it. -/
def Path.Before : Path → Path → Prop :=
  List.Lex Step.Before

theorem Path.Before.ne {path later : Path} (h : path.Before later) : path ≠ later := by
  have hStep (step : Step) : ¬ step.Before step := by
    intro hSelf
    cases hSelf with
    | items hLess => exact Nat.lt_irrefl _ hLess
  rintro rfl
  exact List.lex_irrefl hStep path h

namespace Reading

/-- The node one step below. -/
def child? : Reading → Step → Option Reading
  | pair left _ _, .left => some left
  | pair _ right _, .right => some right
  | list items _, .item index => items[index]?
  | _, _ => none

/-- The node at the end of a path, unless the path leaves the reading. -/
def descend? (r : Reading) : Path → Option Reading
  | [] => some r
  | step :: path => (r.child? step).bind (·.descend? path)

variable {r : Reading}

theorem descend?_cons_eq_some_iff {node : Reading} {step : Step} {path : Path} :
    r.descend? (step :: path) = some node ↔
      ∃ child, r.child? step = some child ∧ child.descend? path = some node :=
  Option.bind_eq_some_iff

theorem descend?_append (path rest : Path) :
    r.descend? (path ++ rest) = (r.descend? path).bind (·.descend? rest) := by
  induction path generalizing r with
  | nil => rfl
  | cons step path ih =>
      rw [List.cons_append, descend?, descend?, Option.bind_assoc]
      exact congrArg (r.child? step).bind (funext fun child => ih)

/-- Seen from one step above, the path of an error starts with that step. -/
theorem mem_map_below {errors : List NodeError} {step : Step} {path : Path} {m : Mismatch} :
    NodeError.mk path m ∈ errors.map (NodeError.below step) ↔
      ∃ rest, path = step :: rest ∧ ⟨rest, m⟩ ∈ errors := by
  constructor
  · intro h
    obtain ⟨e, hMember, hBelow⟩ := List.mem_map.mp h
    cases hBelow
    exact ⟨e.path, rfl, hMember⟩
  · rintro ⟨rest, rfl, hMember⟩
    exact List.mem_map.mpr ⟨_, hMember, rfl⟩

theorem mem_itemErrors {items : List Reading} {index : Nat} {path : Path} {m : Mismatch} :
    ⟨path, m⟩ ∈ itemErrors index items ↔
      ∃ i rest, path = .item (index + i) :: rest ∧
        ∃ item, items[i]? = some item ∧ ⟨rest, m⟩ ∈ item.errors := by
  induction items generalizing index with
  | nil => simp [itemErrors]
  | cons first others ih =>
      rw [itemErrors, List.mem_append, mem_map_below, ih]
      constructor
      · rintro (⟨rest, hPath, hMember⟩ | ⟨i, rest, hPath, hItem⟩)
        · exact ⟨0, rest, hPath, first, rfl, hMember⟩
        · rw [Nat.add_assoc, Nat.add_comm 1] at hPath
          exact ⟨i + 1, rest, hPath, hItem⟩
      · rintro ⟨i, rest, hPath, item, hItem, hMember⟩
        cases i with
        | zero =>
            cases hItem
            exact .inl ⟨rest, hPath, hMember⟩
        | succ i =>
            rw [Nat.add_comm i, ← Nat.add_assoc] at hPath
            exact .inr ⟨i, rest, hPath, item, hItem, hMember⟩

theorem mem_errors_nil {m : Mismatch} : ⟨[], m⟩ ∈ r.errors ↔ r.remarks.mismatch = some m := by
  cases r <;> simp [errors, remarks, Remarks.errors, mem_map_below, mem_itemErrors]

theorem mem_errors_cons {step : Step} {path : Path} {m : Mismatch} :
    ⟨step :: path, m⟩ ∈ r.errors ↔
      ∃ child, r.child? step = some child ∧ ⟨path, m⟩ ∈ child.errors := by
  cases r <;> cases step <;>
    simp [errors, child?, Remarks.errors, mem_map_below, mem_itemErrors, and_assoc]

/-- The errors of a reading are those at the ends of its paths. -/
theorem mem_errors_iff {e : NodeError} :
    e ∈ r.errors ↔
      ∃ node, r.descend? e.path = some node ∧ node.remarks.mismatch = some e.mismatch := by
  obtain ⟨path, m⟩ := e
  induction path generalizing r with
  | nil => simp [mem_errors_nil, descend?]
  | cons step path ih =>
      rw [mem_errors_cons]
      simp only [ih, descend?_cons_eq_some_iff]
      constructor
      · rintro ⟨child, hChild, node, hNode, hMarked⟩
        exact ⟨node, ⟨child, hChild, hNode⟩, hMarked⟩
      · rintro ⟨node, ⟨child, hChild, hNode⟩, hMarked⟩
        exact ⟨child, hChild, node, hNode, hMarked⟩

/-- There are errors exactly if a node at any depth is marked. -/
theorem errors_ne_nil_iff :
    r.errors ≠ [] ↔
      ∃ path node, r.descend? path = some node ∧ node.remarks.mismatch.isSome = true := by
  constructor
  · intro hErrors
    obtain ⟨e, hMember⟩ := List.exists_mem_of_ne_nil _ hErrors
    obtain ⟨node, hNode, hMarked⟩ := mem_errors_iff.mp hMember
    exact ⟨e.path, node, hNode, by rw [hMarked]; rfl⟩
  · rintro ⟨path, node, hNode, hMarked⟩
    obtain ⟨m, hMismatch⟩ := Option.isSome_iff_exists.mp hMarked
    have hMember : ⟨path, m⟩ ∈ r.errors := mem_errors_iff.mpr ⟨node, hNode, hMismatch⟩
    exact List.ne_nil_of_mem hMember

/-! The order of the errors. -/

/-- Errors that are in order stay so when they are seen from one step above. -/
theorem ordered_map_below {errors : List NodeError} (step : Step)
    (h : errors.Pairwise fun e e' => e.path.Before e'.path) :
    (errors.map (NodeError.below step)).Pairwise fun e e' => e.path.Before e'.path :=
  List.pairwise_map.mpr (h.imp .cons)

/-- What is marked on a node comes before anything below the node. -/
theorem ordered_remarks_append {remarks : Remarks} {errors : List NodeError}
    (h : errors.Pairwise fun e e' => e.path.Before e'.path)
    (hBelow : ∀ e ∈ errors, e.path ≠ []) :
    (remarks.errors ++ errors).Pairwise fun e e' => e.path.Before e'.path := by
  rw [Remarks.errors]
  cases remarks.mismatch with
  | none => exact h
  | some m =>
      refine .cons (fun e hMember => ?_) h
      obtain ⟨step, rest, hPath⟩ := List.exists_cons_of_ne_nil (hBelow e hMember)
      rw [hPath]
      exact .nil

theorem path_ne_nil_of_mem_below {errors : List NodeError} {step : Step} {e : NodeError}
    (h : e ∈ errors.map (NodeError.below step)) : e.path ≠ [] := by
  obtain ⟨rest, hPath, -⟩ := mem_map_below.mp h
  rw [hPath]
  exact List.cons_ne_nil _ _

mutual

/-- The errors of a reading are listed in the order of their nodes: no node comes twice,
a node comes before those below it, and what is on the left before what is on the right. -/
theorem errors_ordered : (r : Reading) →
    r.errors.Pairwise fun e e' => e.path.Before e'.path
  | value _ remarks => by
      have hOrdered : (remarks.errors ++ []).Pairwise
          fun e e' : NodeError => e.path.Before e'.path :=
        ordered_remarks_append .nil (by simp)
      rw [List.append_nil] at hOrdered
      exact hOrdered
  | pair left right remarks => by
      apply ordered_remarks_append
      · refine List.pairwise_append.mpr ⟨ordered_map_below _ left.errors_ordered,
          ordered_map_below _ right.errors_ordered, fun e hLeft e' hRight => ?_⟩
        obtain ⟨rest, hPath, -⟩ := mem_map_below.mp hLeft
        obtain ⟨rest', hPath', -⟩ := mem_map_below.mp hRight
        rw [hPath, hPath']
        exact .rel .children
      · intro e hMember
        exact (List.mem_append.mp hMember).elim path_ne_nil_of_mem_below path_ne_nil_of_mem_below
  | list items remarks => by
      apply ordered_remarks_append (itemErrors_ordered items 0)
      intro e hMember
      obtain ⟨i, rest, hPath, -⟩ := mem_itemErrors.mp hMember
      rw [hPath]
      exact List.cons_ne_nil _ _

theorem itemErrors_ordered : (items : List Reading) → (index : Nat) →
    (itemErrors index items).Pairwise fun e e' => e.path.Before e'.path
  | [], _ => .nil
  | first :: others, index => by
      refine List.pairwise_append.mpr ⟨ordered_map_below _ first.errors_ordered,
        itemErrors_ordered others (index + 1), fun e hFirst e' hOthers => ?_⟩
      obtain ⟨rest, hPath, -⟩ := mem_map_below.mp hFirst
      obtain ⟨i, rest', hPath', -⟩ := mem_itemErrors.mp hOthers
      rw [hPath, hPath']
      exact .rel (.items (by omega))

end

end Reading

end TreeSchema
