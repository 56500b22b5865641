import TreeSchema.Proofs.Matching.FirstFit
import TreeSchema.Proofs.NameTable

/-! Schemas with every choice built anew. Rebuilding splices choices into the choices
around them and takes single schemas out, and so changes which lists of alternatives the
reader runs over and what it says where they all fail. What is read of a tree that fits
stays the same, down to the names through which each node was reached. -/
namespace TreeSchema

mutual

/-- The schema with each choice built by `oneOf`, from the innermost on. -/
def Schema.rebuilt : Schema → Schema
  | .choice alternatives => .oneOf (Alternative.rebuiltAll alternatives)
  | .list item => .list item.rebuilt
  | .pair left right => .pair left.rebuilt right.rebuilt

def Alternative.rebuilt : Alternative → Alternative
  | .atom a => .atom a
  | .schema s => .schema s.rebuilt

def Alternative.rebuiltAll : List Alternative → List Alternative
  | [] => []
  | a :: as => a.rebuilt :: Alternative.rebuiltAll as

end

/-- The same names, each with its schema rebuilt. -/
def Definitions.rebuilt (definitions : Definitions) : Definitions :=
  definitions.map Schema.rebuilt

theorem Alternative.rebuiltAll_eq_map (alternatives : List Alternative) :
    Alternative.rebuiltAll alternatives = alternatives.map Alternative.rebuilt := by
  induction alternatives with
  | nil => rfl
  | cons a as ih => rw [Alternative.rebuiltAll, ih, List.map_cons]

section

variable {definitions : Definitions} {name : String}

theorem Definitions.get?_rebuilt_of_none (h : definitions.get? name = none) :
    definitions.rebuilt.get? name = none := by
  rw [Definitions.rebuilt, NameTable.get?_map, h]
  rfl

theorem Definitions.get?_rebuilt_of_some {s : Schema} (h : definitions.get? name = some s) :
    definitions.rebuilt.get? name = some s.rebuilt := by
  rw [Definitions.rebuilt, NameTable.get?_map, h]
  rfl

end

/-- Both readers enter the same names, so they go on with the same names at each call. -/
theorem Alternative.fit?_decode_rebuilt (definitions : Definitions) (expanding : List String)
    (a : Alternative) (t : Tree) :
    (a.rebuilt.decode definitions.rebuilt expanding t).fit? =
      (a.decode definitions expanding t).fit? := by
  induction expanding, a, t using decode_induction definitions with
  | number expanding n t => rw [rebuilt, decode_number, decode_number]
  | builtIn expanding name b t hName =>
      rw [rebuilt, decode_builtIn t hName, decode_builtIn t hName]
  | unknown expanding name t hOther hNone =>
      rw [rebuilt, decode_unknown t hOther hNone,
        decode_unknown t hOther (Definitions.get?_rebuilt_of_none hNone)]
  | circular expanding name s t hOther hFound hPending =>
      rw [rebuilt, decode_circular t hOther hFound hPending,
        decode_circular t hOther (Definitions.get?_rebuilt_of_some hFound) hPending]
  | defined expanding name s t hOther hFound hFresh ih =>
      rw [rebuilt, decode_schema, decode_schema] at ih
      rw [rebuilt, decode_defined t hOther hFound hFresh,
        decode_defined t hOther (Definitions.get?_rebuilt_of_some hFound) hFresh]
      exact Outcome.fit?_viaName_congr ih name
  | choice expanding alternatives t ih =>
      rw [rebuilt, decode_schema, decode_schema, Schema.rebuilt, Schema.fit?_decode_oneOf,
        Schema.fit?_decode_choice, Schema.fit?_decode_choice, rebuiltAll_eq_map,
        List.findSome?_map]
      exact findSome?_congr ih
  | list expanding item t ih =>
      simp only [rebuilt, decode_schema] at ih
      rw [rebuilt, decode_schema, decode_schema, Schema.rebuilt, Schema.decode_list,
        Schema.decode_list]
      exact Outcome.fit?_ofItems_congr ih
  | leaf expanding left right =>
      rw [rebuilt, decode_schema, decode_schema, Schema.rebuilt, Schema.decode_pair_nil,
        Schema.decode_pair_nil]
  | pair expanding left right l r ihLeft ihRight =>
      rw [rebuilt, decode_schema, decode_schema] at ihLeft ihRight
      rw [rebuilt, decode_schema, decode_schema, Schema.rebuilt, Schema.decode_pair_node,
        Schema.decode_pair_node]
      exact Outcome.fit?_ofPair_congr ihLeft ihRight

/-- Where every choice is built anew, in a schema and in the definitions, the same trees
fit, and a tree that fits is read in the same way, with the same names on each node. -/
theorem Schema.read_rebuilt (definitions : Definitions) (s : Schema) (t : Tree) :
    (s.rebuilt.read definitions.rebuilt t).failed = (s.read definitions t).failed ∧
      ((s.read definitions t).failed = false →
        (s.rebuilt.read definitions.rebuilt t).reading = (s.read definitions t).reading) := by
  have hFit := Alternative.fit?_decode_rebuilt definitions [] (.schema s) t
  rw [Alternative.rebuilt, Alternative.decode_schema, Alternative.decode_schema] at hFit
  obtain ⟨hFailed, hSame⟩ := Outcome.fit?_eq_iff.mp hFit
  exact ⟨hFailed, fun hFits => congrArg Outcome.reading (hSame (hFailed.trans hFits))⟩

end TreeSchema
