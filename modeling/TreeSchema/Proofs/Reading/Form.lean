import TreeSchema.Proofs.Reading.Address
import TreeSchema.Proofs.Reading.Text
import TreeSchema.Proofs.Text.Pieces
import TreeSchema.Proofs.Tree.RoundTrip

/-! The written forms of trees and readings, part by part. A writer with a stack, on which
subtrees and marks wait for their turn, writes the same. What is noted on the nodes of a
reading is not written, and a tree as it stands is written as the tree. -/
namespace TreeSchema

namespace Tree

theorem text_node (left right : Tree) :
    (node left right).text = "<" ++ left.text ++ "." ++ right.text ++ ">" := by
  rw [← String.toList_inj]
  simp only [String.toList_append, toList_text, marks, spelled_cons, spelled_append, spelled_nil,
    Mark.text, List.append_assoc]
  rfl

/-- A tree is laid out on a stack with its right side below its left side. -/
def layout : Layout Tree where
  opening
    | nil => "nil"
    | node .. => "<"
  rest
    | nil => []
    | node left right => [.thing left, .text ".", .thing right, .text ">"]
  shrinks := by
    refine ⟨sizeOf, fun t => ?_⟩
    cases t with
    | nil => decide
    | node left right =>
        simp only [Piece.load, node.sizeOf_spec]
        omega

theorem isForm_text : layout.IsForm text := by
  intro t
  cases t with
  | nil => rfl
  | node left right =>
      rw [text_node]
      simp only [layout, Piece.written, String.append_assoc, String.append_empty]

end Tree

/-- A separator stands before each part but the first. -/
theorem intercalate_cons (separator first : String) (others : List String) :
    separator.intercalate (first :: others) =
      first ++ String.join (others.map (separator ++ ·)) := by
  induction others generalizing first with
  | nil => rw [String.intercalate_singleton, List.map_nil, String.join_nil, String.append_empty]
  | cons second others ih =>
      rw [String.intercalate_cons_cons, ih, List.map_cons, String.join_cons, String.append_assoc,
        String.append_assoc]

namespace Reading

/-! The texts of readings. -/

theorem text_value (v : Value) (remarks : Remarks) : (value v remarks).text = v.text :=
  String.empty_append

theorem text_pair (left right : Reading) (remarks : Remarks) :
    (pair left right remarks).text = "<" ++ left.text ++ "." ++ right.text ++ ">" := by
  rw [← String.toList_inj]
  simp only [String.toList_append, toList_text, spelled, List.append_assoc]
  rfl

theorem spelledRest_eq (items : List Reading) :
    spelledRest items = items.flatMap fun item => ',' :: item.spelled := by
  induction items with
  | nil => rfl
  | cons item items ih => rw [spelledRest, ih, List.flatMap_cons]

theorem text_list (items : List Reading) (remarks : Remarks) :
    (list items remarks).text = "[" ++ ",".intercalate (items.map text) ++ "]" := by
  cases items with
  | nil => rfl
  | cons first others =>
      rw [← String.toList_inj, List.map_cons, intercalate_cons]
      simp only [String.toList_append, String.toList_join, toList_text, spelled, spelledRest_eq,
        List.flatMap_map]
      rfl

mutual

/-- The written form of a reading, by recursion: the value, the two sides of a pair, or the
items of a list with commas between them. -/
def form : Reading → String
  | value .nil _ => "nil"
  | value (.number n) _ => String.ofList (Nat.toDigits 10 n.toNat)
  | value (.boolean true) _ => "true"
  | value (.boolean false) _ => "false"
  | pair left right _ => "<" ++ left.form ++ "." ++ right.form ++ ">"
  | list items _ => "[" ++ ",".intercalate (forms items) ++ "]"

def forms : List Reading → List String
  | [] => []
  | item :: items => item.form :: forms items

end

mutual

theorem text_eq_form : (r : Reading) → r.text = r.form
  | value .nil remarks => text_value .nil remarks
  | value (.number n) remarks => text_value (.number n) remarks
  | value (.boolean true) remarks => text_value (.boolean true) remarks
  | value (.boolean false) remarks => text_value (.boolean false) remarks
  | pair left right remarks => by
      rw [text_pair, form, left.text_eq_form, right.text_eq_form]
  | list items remarks => by
      rw [text_list, form, texts_eq_forms items]

theorem texts_eq_forms : (items : List Reading) → items.map text = forms items
  | [] => rfl
  | item :: items => by rw [List.map_cons, forms, item.text_eq_form, texts_eq_forms items]

end

/-! Other remarks. -/

mutual

/-- The same reading with other remarks: those that `notes` has for the path to a node. -/
def annotated (notes : Path → Remarks) : Reading → Reading
  | value v _ => value v (notes [])
  | pair left right _ =>
      pair (left.annotated fun path => notes (.left :: path))
        (right.annotated fun path => notes (.right :: path)) (notes [])
  | list items _ => list (annotatedFrom notes 0 items) (notes [])

/-- Items that are numbered from `index` on, with other remarks. -/
def annotatedFrom (notes : Path → Remarks) (index : Nat) : List Reading → List Reading
  | [] => []
  | item :: items =>
      (item.annotated fun path => notes (.item index :: path)) ::
        annotatedFrom notes (index + 1) items

end

theorem getElem?_annotatedFrom (notes : Path → Remarks) (index : Nat) (items : List Reading)
    (i : Nat) : (annotatedFrom notes index items)[i]? =
      items[i]?.map fun item => item.annotated fun path => notes (.item (index + i) :: path) := by
  induction items generalizing index i with
  | nil => rfl
  | cons item items ih =>
      cases i with
      | zero => rfl
      | succ i =>
          rw [annotatedFrom, List.getElem?_cons_succ, List.getElem?_cons_succ, ih]
          simp only [Nat.add_assoc, Nat.add_comm 1]

theorem child?_annotated (notes : Path → Remarks) (r : Reading) (step : Step) :
    (r.annotated notes).child? step =
      (r.child? step).map fun child => child.annotated fun path => notes (step :: path) := by
  cases r with
  | value v remarks => cases step <;> rfl
  | pair left right remarks => cases step <;> rfl
  | list items remarks =>
      cases step with
      | item index =>
          have hItem := getElem?_annotatedFrom notes 0 items index
          rw [Nat.zero_add] at hItem
          exact hItem
      | left => rfl
      | right => rfl

/-- The nodes are the same as before, and at each of them stands what `notes` has for it. -/
theorem remarks_annotated (notes : Path → Remarks) (r : Reading) (path : Path) :
    ((r.annotated notes).descend? path).map remarks =
      (r.descend? path).map fun _ => notes path := by
  induction path generalizing r notes with
  | nil => cases r <;> rfl
  | cons step path ih =>
      rw [descend?, descend?, child?_annotated]
      cases r.child? step with
      | none => rfl
      | some child => exact ih (fun path => notes (step :: path)) child

mutual

theorem text_annotated (notes : Path → Remarks) :
    (r : Reading) → (r.annotated notes).text = r.text
  | value v remarks => by rw [annotated, text_value, text_value]
  | pair left right remarks => by
      rw [annotated, text_pair, text_pair, text_annotated _ left, text_annotated _ right]
  | list items remarks => by
      rw [annotated, text_list, text_list, texts_annotatedFrom notes 0 items]

theorem texts_annotatedFrom (notes : Path → Remarks) (index : Nat) : (items : List Reading) →
    (annotatedFrom notes index items).map text = items.map text
  | [] => rfl
  | item :: items => by
      rw [annotatedFrom, List.map_cons, List.map_cons, text_annotated _ item,
        texts_annotatedFrom notes (index + 1) items]

end

/-! The layout of readings on a stack. -/

/-- Put an item on a stack, with a comma on top of it unless it is the first of its list. -/
def pushItem (item : Reading × Nat) (stack : List (Piece Reading)) : List (Piece Reading) :=
  if item.2 > 0 then .text "," :: .thing item.1 :: stack else .thing item.1 :: stack

/-- Put the items of a list on a stack, the last one first. -/
def pushItems (items : List Reading) (stack : List (Piece Reading)) : List (Piece Reading) :=
  items.zipIdx.foldr pushItem stack

theorem load_pushItem (item : Reading) (index : Nat) (stack : List (Piece Reading)) :
    Piece.load sizeOf (pushItem (item, index) stack) = sizeOf item + Piece.load sizeOf stack := by
  unfold pushItem
  split <;> rfl

/-- Commas weigh nothing, so what a list brings to the stack is less than the list. -/
theorem load_foldr_pushItem (items : List Reading) (index : Nat) (stack : List (Piece Reading)) :
    Piece.load sizeOf ((items.zipIdx index).foldr pushItem stack) <
      sizeOf items + Piece.load sizeOf stack := by
  induction items generalizing index with
  | nil =>
      rw [List.zipIdx_nil, List.foldr_nil, List.nil.sizeOf_spec]
      omega
  | cons item items ih =>
      have hItems := ih (index + 1)
      rw [List.zipIdx_cons, List.foldr_cons, load_pushItem, List.cons.sizeOf_spec]
      omega

/-- Items that are not counted from 0 have a comma before each of them. -/
theorem written_foldr_pushItem (items : List Reading) (index : Nat)
    (stack : List (Piece Reading)) :
    Piece.written text ((items.zipIdx (index + 1)).foldr pushItem stack) =
      String.join ((items.map text).map ("," ++ ·)) ++ Piece.written text stack := by
  induction items generalizing index with
  | nil => exact String.empty_append.symm
  | cons item items ih =>
      rw [List.zipIdx_cons, List.foldr_cons, pushItem, if_pos (Nat.succ_pos index), Piece.written,
        Piece.written, ih, List.map_cons, List.map_cons, String.join_cons]
      simp only [String.append_assoc]

theorem written_pushItems (items : List Reading) (stack : List (Piece Reading)) :
    Piece.written text (pushItems items stack) =
      ",".intercalate (items.map text) ++ Piece.written text stack := by
  cases items with
  | nil => exact String.empty_append.symm
  | cons first others =>
      rw [pushItems, List.zipIdx_cons, List.foldr_cons, pushItem, if_neg (Nat.lt_irrefl 0),
        Piece.written, written_foldr_pushItem, List.map_cons, intercalate_cons,
        String.append_assoc]

/-- A reading is laid out with its closing mark below all that is inside of it. -/
def layout : Layout Reading where
  opening
    | value v _ => v.text
    | pair .. => "<"
    | list .. => "["
  rest
    | value .. => []
    | pair left right _ => [.thing left, .text ".", .thing right, .text ">"]
    | list items _ => pushItems items [.text "]"]
  shrinks := by
    refine ⟨sizeOf, fun r => ?_⟩
    cases r with
    | value v remarks =>
        rw [value.sizeOf_spec]
        simp only [Piece.load]
        omega
    | pair left right remarks =>
        rw [pair.sizeOf_spec]
        simp only [Piece.load]
        omega
    | list items remarks =>
        have hItems := load_foldr_pushItem items 0 [.text "]"]
        rw [list.sizeOf_spec]
        simp only [pushItems, Piece.load] at *
        omega

theorem isForm_text : layout.IsForm text := by
  intro r
  cases r with
  | value v remarks =>
      rw [text_value]
      exact String.append_empty.symm
  | pair left right remarks =>
      rw [text_pair]
      simp only [layout, Piece.written, String.append_assoc, String.append_empty]
  | list items remarks =>
      rw [text_list]
      simp only [layout, written_pushItems, Piece.written, String.append_assoc,
        String.append_empty]

theorem text_ofTree (t : Tree) : (ofTree t).text = t.text := by
  induction t with
  | nil => rfl
  | node left right ihLeft ihRight =>
      rw [ofTree, ofPair, text_pair, ihLeft, ihRight, Tree.text_node]

/-- A writer with a stack writes a reading as it is written by recursion: values in words or
digits, the sides of a pair in `<` and `>` with a dot between them, and the items of a list in
brackets with commas between them. Other remarks on the nodes of a reading, at any depth, leave
its text as it is. A tree as it stands is written as the tree, which a stack serves for as well. -/
theorem written_forms :
    (∀ r : Reading, layout.write r = r.form ∧ r.text = r.form ∧
      ∀ notes, (r.annotated notes).text = r.text ∧
        ∀ path, ((r.annotated notes).descend? path).map remarks =
          (r.descend? path).map fun _ => notes path) ∧
    ∀ t : Tree, (ofTree t).text = t.text ∧ Tree.layout.write t = t.text := by
  constructor
  · intro r
    have hStack : layout.write r = r.form := by
      rw [Layout.write_eq isForm_text, text_eq_form]
    exact ⟨hStack, r.text_eq_form, fun notes => ⟨text_annotated notes r, remarks_annotated notes r⟩⟩
  · intro t
    exact ⟨text_ofTree t, Layout.write_eq Tree.isForm_text t⟩

end Reading

end TreeSchema
