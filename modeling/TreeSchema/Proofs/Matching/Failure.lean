import TreeSchema.Proofs.Matching.Recursion
import TreeSchema.Proofs.Reading.Address

/-! When a tree counts as not fitting. An outcome carries its failure as a flag beside the
reading, and each way to make an outcome from others keeps the two in agreement: the flag
is up exactly if some node of the reading is marked. -/
namespace TreeSchema

namespace Reading

theorem errors_ofTree (t : Tree) : (ofTree t).errors = [] := by
  induction t with
  | nil => rfl
  | node left right ihLeft ihRight =>
      rw [ofTree, ofPair, errors, ihLeft, ihRight]
      rfl

theorem errors_viaName (r : Reading) (name : String) : (r.viaName name).errors = r.errors := by
  cases r <;> rfl

theorem errors_withMismatch (r : Reading) (m : Mismatch) : (r.withMismatch m).errors ≠ [] := by
  apply List.ne_nil_of_mem
  apply mem_errors_nil.mpr
  show (r.withMismatch m).remarks.mismatch = some m
  cases r <;> rfl

theorem errors_ofPair_eq_nil_iff {left right : Reading} :
    (ofPair left right).errors = [] ↔ left.errors = [] ∧ right.errors = [] := by
  simp [ofPair, errors, Remarks.errors]

theorem itemErrors_eq_nil_iff {items : List Reading} {index : Nat} :
    itemErrors index items = [] ↔ ∀ item ∈ items, item.errors = [] := by
  induction items generalizing index with
  | nil => simp [itemErrors]
  | cons first others ih =>
      rw [itemErrors, List.append_eq_nil_iff, List.map_eq_nil_iff, ih, List.forall_mem_cons]

theorem errors_ofItems_eq_nil_iff {items : List Reading} :
    (ofItems items).errors = [] ↔ ∀ item ∈ items, item.errors = [] := by
  rw [ofItems, errors]
  exact itemErrors_eq_nil_iff

end Reading

namespace Outcome

/-- The flag is down exactly if the reading has no errors. -/
def Faithful (o : Outcome) : Prop :=
  o.failed = false ↔ o.reading.errors = []

theorem Faithful.exists_error {o : Outcome} (h : o.Faithful) (hFailed : o.failed = true) :
    ∃ e, e ∈ o.reading.errors := by
  apply List.exists_mem_of_ne_nil
  intro hNone
  rw [h.mpr hNone] at hFailed
  cases hFailed

theorem faithful_fits {r : Reading} (h : r.errors = []) : (fits r).Faithful :=
  ⟨fun _ => h, fun _ => rfl⟩

theorem faithful_fails (r : Reading) (m : Mismatch) : (fails r m).Faithful := by
  constructor
  · intro hFits
    cases hFits
  · intro hNone
    exact absurd hNone (r.errors_withMismatch m)

theorem Faithful.viaName {o : Outcome} (h : o.Faithful) (name : String) :
    (o.viaName name).Faithful := by
  show o.failed = false ↔ (o.reading.viaName name).errors = []
  rw [Reading.errors_viaName]
  exact h

theorem Faithful.ofPair {left right : Outcome} (hLeft : left.Faithful) (hRight : right.Faithful) :
    (ofPair left right).Faithful := by
  show (left.failed || right.failed) = false ↔
    (Reading.ofPair left.reading right.reading).errors = []
  rw [Bool.or_eq_false_iff, Reading.errors_ofPair_eq_nil_iff]
  exact and_congr hLeft hRight

theorem faithful_ofItems {items : List Outcome} (h : ∀ o ∈ items, o.Faithful) :
    (ofItems items).Faithful := by
  show items.any failed = false ↔ (Reading.ofItems (items.map reading)).errors = []
  rw [List.any_eq_false, Reading.errors_ofItems_eq_nil_iff, List.forall_mem_map]
  constructor
  · intro hNone o hMember
    exact (h o hMember).mp (Bool.eq_false_iff.mpr (hNone o hMember))
  · intro hNone o hMember
    exact Bool.eq_false_iff.mp ((h o hMember).mpr (hNone o hMember))

theorem Leaf.faithful {t : Tree} {o : Outcome} (h : Leaf t o) : o.Faithful := by
  cases h with
  | nil => exact faithful_fits rfl
  | number => exact faithful_fits rfl
  | boolean => exact faithful_fits rfl
  | mirrored => exact faithful_fits (Reading.errors_ofTree t)
  | refused t m => exact faithful_fails _ m
  | otherThan => exact faithful_fails _ _

end Outcome

/-- Of the alternatives that fail nothing is left, neither flag nor errors. -/
theorem Alternative.Yields.faithful {definitions : Definitions} {expanding : List String}
    {a : Alternative} {t : Tree} {o : Outcome} (h : a.Yields definitions expanding t o) :
    o.Faithful := by
  induction h with
  | leaf leaf => exact leaf.faithful
  | @defined _ name _ _ _ _ _ _ _ ih => exact ih.viaName name
  | choice _ _ ih => exact ih
  | list _ ih => exact Outcome.faithful_ofItems (List.forall_mem_map.mpr ih)
  | pair _ _ ihLeft ihRight => exact ihLeft.ofPair ihRight

theorem Alternative.faithful_decode (definitions : Definitions) (expanding : List String)
    (a : Alternative) (t : Tree) : (a.decode definitions expanding t).Faithful :=
  (a.yields_decode definitions expanding t).faithful

theorem Schema.faithful_read (definitions : Definitions) (s : Schema) (t : Tree) :
    (s.read definitions t).Faithful :=
  (s.yields_read definitions t).faithful

/-- A tree is said not to fit exactly if its reading lists an error, which is exactly if
some node of the reading, at any depth, is marked with a mismatch. -/
theorem Schema.failed_read_iff (definitions : Definitions) (s : Schema) (t : Tree) :
    ((s.read definitions t).failed = true ↔ (s.read definitions t).reading.errors ≠ []) ∧
    ((s.read definitions t).reading.errors ≠ [] ↔
      ∃ path node, (s.read definitions t).reading.descend? path = some node ∧
        node.remarks.mismatch.isSome = true) := by
  have hFaithful := Alternative.faithful_decode definitions [] (.schema s) t
  rw [Alternative.decode_schema] at hFaithful
  refine ⟨?_, Reading.errors_ne_nil_iff⟩
  rw [← Bool.not_eq_false]
  exact not_congr hFaithful

end TreeSchema
