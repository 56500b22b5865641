import TreeSchema.Proofs.Matching.Recursion
import TreeSchema.Proofs.Tree.Number

/-! What a reading still says about the tree that was read. Remarks are left out,
and decoded values are written as trees again; the tree comes back unchanged,
whether or not it fits. -/
namespace TreeSchema

/-- The tree that a value stands for. -/
def Value.erase : Value → Tree
  | nil => .nil
  | number n => .ofNat n.toNat
  | boolean b => .ofBool b

namespace Reading

mutual

/-- The tree that a reading is a reading of, without any remarks. -/
def erase : Reading → Tree
  | value v _ => v.erase
  | pair left right _ => .node left.erase right.erase
  | list items _ => .ofList (eraseAll items)

def eraseAll : List Reading → List Tree
  | [] => []
  | item :: items => item.erase :: eraseAll items

end

theorem eraseAll_eq_map (items : List Reading) : eraseAll items = items.map erase := by
  induction items with
  | nil => rfl
  | cons item items ih => rw [eraseAll, List.map_cons, ih]

@[simp] theorem erase_remark (f : Remarks → Remarks) (r : Reading) :
    (r.remark f).erase = r.erase := by
  cases r <;> simp only [remark, erase]

@[simp] theorem erase_ofTree (t : Tree) : (ofTree t).erase = t := by
  induction t with
  | nil => rfl
  | node left right ihLeft ihRight => rw [ofTree, ofPair, erase, ihLeft, ihRight]

end Reading

namespace Outcome

@[simp] theorem erase_refuse (t : Tree) (m : Mismatch) : (refuse t m).reading.erase = t := by
  simp [refuse, fails, Reading.withMismatch]

@[simp] theorem erase_viaName (o : Outcome) (name : String) :
    (o.viaName name).reading.erase = o.reading.erase := by
  simp [viaName, Reading.viaName]

theorem erase_ofItems (items : List Outcome) :
    (ofItems items).reading.erase = .ofList (items.map (·.reading.erase)) := by
  simp only [ofItems, Reading.ofItems, Reading.erase, Reading.eraseAll_eq_map, List.map_map]
  rfl

/-- A number other than the wanted one is kept as that number. -/
theorem Leaf.erase {t : Tree} {o : Outcome} (h : Leaf t o) : o.reading.erase = t := by
  cases h with
  | nil => rfl
  | number isNumber => exact ((Tree.number?_eq_some_iff t _).mp isNumber).symm
  | boolean isBoolean => exact ((Tree.bool?_eq_some_iff t _).mp isBoolean).symm
  | mirrored => exact Reading.erase_ofTree t
  | refused t m => exact erase_refuse t m
  | otherThan isNumber _ => exact ((Tree.number?_eq_some_iff t _).mp isNumber).symm

end Outcome

/-- A choice keeps the tree if its alternatives do, also when all of them fail. -/
theorem Alternative.Yields.erase {definitions : Definitions} {expanding : List String}
    {a : Alternative} {t : Tree} {o : Outcome} (h : a.Yields definitions expanding t o) :
    o.reading.erase = t := by
  induction h with
  | leaf leaf => exact leaf.erase
  | defined _ _ _ _ ih => rw [Outcome.erase_viaName, ih]
  | choice _ _ ih => exact ih
  | @list _ _ t outcome _ ih =>
      rw [Outcome.erase_ofItems, List.map_map]
      have hItems : t.items.map (fun t' => (outcome t').reading.erase) = t.items :=
        (List.map_congr_left ih).trans (List.map_id' t.items)
      exact (congrArg Tree.ofList hItems).trans (Tree.ofList_items t)
  | pair _ _ ihLeft ihRight =>
      simp only [Outcome.ofPair, Reading.ofPair, Reading.erase, ihLeft, ihRight]

theorem Alternative.erase_decode (definitions : Definitions) (expanding : List String)
    (a : Alternative) (t : Tree) : (a.decode definitions expanding t).reading.erase = t :=
  (a.yields_decode definitions expanding t).erase

/-- Reading loses and alters nothing: the tree is still there, decoded or as it
stood, below whatever remarks were made. -/
theorem Schema.erase_read (definitions : Definitions) (s : Schema) (t : Tree) :
    (s.read definitions t).reading.erase = t := by
  have h := Alternative.erase_decode definitions [] (.schema s) t
  rw [Alternative.decode_schema] at h
  exact h

end TreeSchema
