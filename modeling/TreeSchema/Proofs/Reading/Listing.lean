import TreeSchema.Proofs.Reading.Address
import TreeSchema.Proofs.Reading.Path

/-! The listing of the errors in a reading. It has one entry for each node that is marked, and
the path in an entry, as it is written, leads back to the node. A walk that keeps the nodes
still to be visited on a stack, and writes their paths as it goes, lists the same. -/
namespace TreeSchema

/-- The step that is written at the start of a text, and the rest. -/
def Step.first? : List Char → Option (Step × List Char)
  | '.' :: 'l' :: 'e' :: 'f' :: 't' :: rest => some (.left, rest)
  | '.' :: 'r' :: 'i' :: 'g' :: 'h' :: 't' :: rest => some (.right, rest)
  | '[' :: rest =>
      match rest.dropWhile Char.isDigit with
      | ']' :: after => some (.item (Nat.ofDigitChars 10 (rest.takeWhile Char.isDigit) 0), after)
      | _ => none
  | _ => none

theorem Step.first?_length {cs rest : List Char} {step : Step}
    (h : Step.first? cs = some (step, rest)) : rest.length < cs.length := by
  unfold Step.first? at h
  split at h
  case h_3 inside =>
    split at h
    · next after hAfter =>
        cases h
        have hLength := (List.dropWhile_suffix (l := inside) Char.isDigit).length_le
        rw [hAfter, List.length_cons] at hLength
        rw [List.length_cons]
        omega
    · cases h
  case h_4 => cases h
  all_goals
    cases h
    simp only [List.length_cons]
    omega

namespace Path

/-- The steps that a text consists of. -/
def steps? (cs : List Char) : Option Path :=
  match cs with
  | [] => some []
  | c :: cs =>
      match found : Step.first? (c :: cs) with
      | some (step, rest) =>
          have := Step.first?_length found
          (steps? rest).map (step :: ·)
      | none => none
  termination_by cs.length
  decreasing_by assumption

/-- The path that a text writes from `$` on. -/
def ofText? (text : String) : Option Path :=
  match text.toList with
  | '$' :: cs => steps? cs
  | _ => none

end Path

/-- A step is read as far as it is written, whatever follows. -/
theorem Step.first?_text (step : Step) (rest : List Char) :
    Step.first? (step.text.toList ++ rest) = some (step, rest) := by
  cases step with
  | left => rfl
  | right => rfl
  | item index =>
      have hRun : (index.repr.toList ++ ']' :: rest).takeWhile Char.isDigit = index.repr.toList ∧
          (index.repr.toList ++ ']' :: rest).dropWhile Char.isDigit = ']' :: rest :=
        takeWhile_run (fun c hMember => isDigit_of_mem_repr hMember) (by simp)
      rw [Step.toList_text_item, List.cons_append, List.append_assoc, List.singleton_append]
      simp only [Step.first?, hRun.1, hRun.2]
      rw [Nat.toList_repr, Nat.ofDigitChars_ten_toDigits]

namespace Path

theorem steps?_text (path : Path) : steps? (path.flatMap (·.text.toList)) = some path := by
  induction path with
  | nil => rw [List.flatMap_nil, steps?]
  | cons step path ih =>
      have hFirst := step.first?_text (path.flatMap (·.text.toList))
      obtain ⟨c, cs, hText⟩ := List.exists_cons_of_ne_nil step.toList_text_ne_nil
      rw [hText, List.cons_append] at hFirst
      rw [List.flatMap_cons, hText, List.cons_append, steps?]
      split
      · next found =>
          rw [hFirst] at found
          cases found
          rw [ih]
          rfl
      · next found =>
          rw [hFirst] at found
          cases found

/-- A written path is read back. -/
theorem ofText?_text (path : Path) : ofText? path.text = some path := by
  rw [ofText?, toList_text]
  exact steps?_text path

theorem text_injective : Function.Injective Path.text := by
  intro path other hText
  have hRead := congrArg ofText? hText
  rw [ofText?_text, ofText?_text] at hRead
  exact Option.some.inj hRead

end Path

namespace Reading

/-- The nodes right below a node, each with the step that leads to it. -/
def children : Reading → List (Step × Reading)
  | value .. => []
  | pair left right _ => [(.left, left), (.right, right)]
  | list items _ => items.zipIdx.map fun item => (.item item.2, item.1)

theorem itemErrors_eq (index : Nat) (items : List Reading) :
    itemErrors index items =
      (items.zipIdx index).flatMap fun item => item.1.errors.map (.below (.item item.2)) := by
  induction items generalizing index with
  | nil => rfl
  | cons item items ih => rw [itemErrors, ih, List.zipIdx_cons, List.flatMap_cons]

/-- The errors below a node are those of its children, child by child. -/
theorem errors_eq (r : Reading) :
    r.errors = r.remarks.errors ++
      r.children.flatMap fun child => child.2.errors.map (.below child.1) := by
  cases r with
  | value v remarks => exact (List.append_nil _).symm
  | pair left right remarks =>
      simp only [errors, children, Reading.remarks, List.flatMap_cons, List.flatMap_nil,
        List.append_nil]
  | list items remarks =>
      rw [errors, itemErrors_eq, children, List.flatMap_map]
      rfl

theorem sizeOf_append (items others : List Reading) :
    sizeOf (items ++ others) + 1 = sizeOf items + sizeOf others := by
  induction items with
  | nil => rw [List.nil_append, List.nil.sizeOf_spec, Nat.add_comm]
  | cons item items ih =>
      rw [List.cons_append, List.cons.sizeOf_spec, List.cons.sizeOf_spec]
      omega

/-- Children in place of their parent are smaller, though a list has one more cell for each. -/
theorem sizeOf_children_le (r : Reading) : sizeOf (r.children.map (·.2)) ≤ sizeOf r + 1 := by
  cases r with
  | value v remarks =>
      rw [children, List.map_nil, List.nil.sizeOf_spec]
      omega
  | pair left right remarks =>
      obtain ⟨mismatch, aliases⟩ := remarks
      rw [pair.sizeOf_spec, Remarks.mk.sizeOf_spec]
      simp only [children, List.map_cons, List.map_nil, List.cons.sizeOf_spec,
        List.nil.sizeOf_spec]
      omega
  | list items remarks =>
      have hItems : (list items remarks).children.map (·.2) = items := by
        rw [children, List.map_map]
        exact List.zipIdx_map_fst 0 items
      rw [hItems, list.sizeOf_spec]
      omega

/-- The errors of the nodes that are still to be visited and of all below them. The topmost
node of the stack is visited next, and its children come in its place. -/
def walk : List (String × Reading) → List (String × String)
  | [] => []
  | (path, r) :: pending =>
      r.remarks.mismatch.toList.map (fun m => (path, m.message)) ++
        walk (r.children.map (fun child => (path ++ child.1.text, child.2)) ++ pending)
  termination_by pending => sizeOf (pending.map (·.2))
  decreasing_by
    have hAppend := sizeOf_append (r.children.map (·.2)) (pending.map (·.2))
    have hChildren := r.sizeOf_children_le
    simp only [List.map_append, List.map_map, List.map_cons, List.cons.sizeOf_spec,
      Function.comp_def]
    omega

/-- A walk lists the errors of one pending node after the other. -/
theorem walk_eq (pending : List (String × Reading)) :
    walk pending = pending.flatMap fun visit =>
      visit.2.errors.map fun e => (e.path.textFrom visit.1, e.message) := by
  fun_induction walk pending with
  | case1 => rfl
  | case2 path r pending ih =>
      rw [ih, List.flatMap_append, List.flatMap_cons, ← List.append_assoc]
      congr 1
      -- what is left is the topmost node, whose errors are its own and those of its children
      change _ = r.errors.map fun e => (e.path.textFrom path, e.message)
      rw [r.errors_eq, List.map_append, List.flatMap_map, List.map_flatMap, Remarks.errors,
        List.map_map]
      simp only [List.map_map]
      rfl

theorem errors_nodup (r : Reading) : r.errors.Nodup :=
  r.errors_ordered.imp fun hBefore hSame => hBefore.ne (congrArg NodeError.path hSame)

/-- The entries for a node: one if it is marked, and none otherwise. -/
theorem filter_errors_eq (r : Reading) (path : Path) :
    r.errors.filter (·.path = path) =
      ((r.descend? path).bind (·.remarks.mismatch)).toList.map (NodeError.mk path) := by
  have hMember (e : NodeError) : e ∈ r.errors.filter (·.path = path) ↔
      (r.descend? path).bind (·.remarks.mismatch) = some e.mismatch ∧ e.path = path := by
    rw [List.mem_filter, decide_eq_true_eq, mem_errors_iff, Option.bind_eq_some_iff]
    exact and_congr_left fun hPath => by rw [hPath]
  cases hMarked : (r.descend? path).bind (·.remarks.mismatch) with
  | none =>
      rw [Option.toList_none, List.map_nil, List.eq_nil_iff_forall_not_mem]
      intro e hEntry
      rw [hMember, hMarked] at hEntry
      cases hEntry.1
  | some m =>
      rw [Option.toList_some, List.map_singleton, ← List.perm_singleton]
      apply (List.perm_ext_iff_of_nodup (r.errors_nodup.filter _)
        (List.pairwise_singleton _ _)).mpr
      rintro ⟨path', m'⟩
      rw [hMember, hMarked, Option.some.injEq, List.mem_singleton, NodeError.mk.injEq, and_comm,
        eq_comm (a := m)]

/-- Each node of a reading that is marked is listed once, with what is marked on it, and
nothing else is. Nodes come before those below them, the left before the right, and items in
their order. A path as it is written is read back as the steps that lead to its node, so no
two nodes have paths that are written alike. The walk with a stack reports the same. -/
theorem errors_listed (r : Reading) :
    (∀ path, r.errors.filter (·.path = path) =
      ((r.descend? path).bind (·.remarks.mismatch)).toList.map (NodeError.mk path)) ∧
    r.errors.Pairwise (fun e e' => e.path.Before e'.path) ∧
    (∀ path, Path.ofText? (Path.text path) = some path) ∧
    Function.Injective Path.text ∧
    walk [("$", r)] = r.errors.map NodeError.reported := by
  refine ⟨r.filter_errors_eq, r.errors_ordered, Path.ofText?_text, Path.text_injective, ?_⟩
  rw [walk_eq, List.flatMap_singleton]
  rfl

end Reading

end TreeSchema
