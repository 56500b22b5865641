import TreeSchema.Proofs.Matching.Failure
import TreeSchema.Proofs.Reading.Path
import TreeSchema.Proofs.Schema.FixedList
import TreeSchema.Proofs.Schema.Rereading

/-! Reading by fixed lists. A fixed list takes the items of a tree one after the other, each by
its own description. An error in an item is reported at the place of the item, and one more
where items are missing or left over. -/
namespace TreeSchema

/-- The path to what comes after the first `n` items. -/
def Path.afterItems (n : Nat) : Path :=
  List.replicate n .right

/-- The path to an item, counted from zero. -/
def Path.toItem (index : Nat) : Path :=
  Path.afterItems index ++ [.left]

theorem Path.afterItems_succ (n : Nat) : afterItems (n + 1) = afterItems n ++ [.right] :=
  List.replicate_succ'

/-- Nothing is left of a list beyond its end. -/
theorem Tree.ofList_drop_eq_nil_iff {items : List Tree} {n : Nat} :
    Tree.ofList (items.drop n) = .nil ↔ items.length ≤ n := by
  rw [← List.drop_eq_nil_iff]
  constructor
  · intro h
    rw [← Tree.items_ofList (items.drop n), h]
    rfl
  · intro h
    rw [h]
    rfl

namespace Schema

variable {definitions : Definitions} {items : List Tree}

/-- The errors in items that are read each by its own schema, numbered from `index` on. -/
def errorsIn (definitions : Definitions) (index : Nat) (parts : List Schema)
    (items : List Tree) : List NodeError :=
  ((parts.zip items).zipIdx index).flatMap fun ((s, t), i) =>
    (s.read definitions t).reading.errors.map (.under (.toItem i))

theorem errorsIn_cons (index : Nat) (s : Schema) (parts : List Schema) (t : Tree) :
    errorsIn definitions index (s :: parts) (t :: items) =
      (s.read definitions t).reading.errors.map (.under (.toItem index)) ++
        errorsIn definitions (index + 1) parts items := rfl

theorem errors_read_pair_nil (left right : Schema) :
    ((pair left right).read definitions .nil).reading.errors = [⟨[], .notPair⟩] := by
  rw [read, decode_pair_nil]
  rfl

theorem errors_read_pair_node (left right : Schema) (l r : Tree) :
    ((pair left right).read definitions (.node l r)).reading.errors =
      (left.read definitions l).reading.errors.map (.below .left) ++
        (right.read definitions r).reading.errors.map (.below .right) := by
  rw [read, decode_pair_node]
  rfl

/-- Along the right spine, each pair takes one item. Where the items end first, a pair is
missing; where the pairs end first, the tail is read. -/
theorem errors_read_items (definitions : Definitions) (before : Nat) (parts : List Schema)
    (tail : Schema) (items : List Tree) :
    ((Schema.items parts tail).read definitions (.ofList items)).reading.errors.map
        (.under (.afterItems before)) =
      errorsIn definitions before parts items ++
        if items.length < parts.length then [⟨.afterItems (before + items.length), .notPair⟩]
        else (tail.read definitions (.ofList (items.drop parts.length))).reading.errors.map
          (.under (.afterItems (before + parts.length))) := by
  induction parts generalizing before items with
  | nil => simp [Schema.items, errorsIn]
  | cons s parts ih =>
      cases items with
      | nil =>
          change ((pair s (Schema.items parts tail)).read definitions .nil).reading.errors.map _ = _
          rw [errors_read_pair_nil]
          simp [errorsIn, NodeError.under_mk_nil]
      | cons t items =>
          have hMore := ih (before + 1) items
          change ((pair s (Schema.items parts tail)).read definitions
            (.node t (.ofList items))).reading.errors.map _ = _
          rw [errors_read_pair_node, List.map_append, NodeError.map_under_map_below,
            NodeError.map_under_map_below, ← Path.afterItems_succ, hMore, errorsIn_cons,
            List.append_assoc]
          simp only [List.length_cons, List.drop_succ_cons, Nat.add_lt_add_iff_right,
            Nat.add_right_comm before 1, ← Nat.add_assoc]
          rfl

theorem errors_read_any (t : Tree) : (any.read definitions t).reading.errors = [] := by
  have hAny : any.read definitions t = BuiltIn.any.decode t := decode_builtIn t rfl
  rw [hAny]
  exact Reading.errors_ofTree t

/-- A tree that is refused is reported as a whole, wherever its nodes are. -/
theorem errors_refuse (t : Tree) (m : Mismatch) :
    (Outcome.refuse t m).reading.errors = [⟨[], m⟩] := by
  cases t with
  | nil => rfl
  | node l r =>
      change NodeError.mk [] m :: ((Reading.ofTree l).errors.map (NodeError.below .left) ++
        (Reading.ofTree r).errors.map (NodeError.below .right)) = _
      rw [Reading.errors_ofTree, Reading.errors_ofTree]
      rfl

theorem errors_read_nil (t : Tree) :
    ((named "nil").read definitions t).reading.errors =
      if t = .nil then [] else [⟨[], .notNil⟩] := by
  have hNil : (named "nil").read definitions t = BuiltIn.nil.decode t := decode_builtIn t rfl
  rw [hNil, BuiltIn.decode]
  split
  · rfl
  · exact errors_refuse t .notNil

theorem errors_read_closed (parts : List Schema) (items : List Tree) :
    ((Schema.items parts (named "nil")).read definitions (.ofList items)).reading.errors =
      errorsIn definitions 0 parts items ++
        ((if items.length < parts.length then [⟨.afterItems items.length, .notPair⟩] else []) ++
          if parts.length < items.length then [⟨.afterItems parts.length, .notNil⟩] else []) := by
  have hErrors := errors_read_items definitions 0 parts (named "nil") items
  rw [Path.afterItems, List.replicate_zero, NodeError.map_under_nil, Nat.zero_add, Nat.zero_add]
    at hErrors
  rw [hErrors, errors_read_nil]
  congr 1
  by_cases hShort : items.length < parts.length
  · rw [if_pos hShort, if_pos hShort, if_neg (Nat.lt_asymm hShort), List.append_nil]
  · rw [if_neg hShort, if_neg hShort, List.nil_append]
    by_cases hLong : parts.length < items.length
    · rw [if_pos hLong, if_neg (by rw [Tree.ofList_drop_eq_nil_iff]; omega), List.map_singleton,
        NodeError.under_mk_nil]
    · rw [if_neg hLong, if_pos (by rw [Tree.ofList_drop_eq_nil_iff]; omega)]
      rfl

theorem errors_read_opened (parts : List Schema) (items : List Tree) :
    ((Schema.items parts any).read definitions (.ofList items)).reading.errors =
      errorsIn definitions 0 parts items ++
        if items.length < parts.length then [⟨.afterItems items.length, .notPair⟩] else [] := by
  have hErrors := errors_read_items definitions 0 parts any items
  rw [Path.afterItems, List.replicate_zero, NodeError.map_under_nil, Nat.zero_add, Nat.zero_add]
    at hErrors
  rw [hErrors, errors_read_any]
  rfl

theorem read_fits_iff_errors (s : Schema) (t : Tree) :
    (s.read definitions t).failed = false ↔ (s.read definitions t).reading.errors = [] :=
  s.faithful_read definitions t

theorem errorsIn_eq_nil_iff (index : Nat) (parts : List Schema) :
    errorsIn definitions index parts items = [] ↔
      ∀ p ∈ parts.zip items, (p.1.read definitions p.2).failed = false := by
  simp only [errorsIn, List.flatMap_eq_nil_iff, List.map_eq_nil_iff, read_fits_iff_errors]
  conv_rhs => rw [← List.zipIdx_map_fst index (parts.zip items), List.forall_mem_map]

/-- One error more is noted where the condition for it holds. -/
theorem ite_singleton_eq_nil_iff {c : Prop} [Decidable c] (e : NodeError) :
    (if c then [e] else []) = [] ↔ ¬ c := by
  split <;> simp [*]

theorem read_closed_fits_iff (parts : List Schema) (items : List Tree) :
    ((Schema.items parts (named "nil")).read definitions (.ofList items)).failed = false ↔
      items.length = parts.length ∧
        ∀ p ∈ parts.zip items, (p.1.read definitions p.2).failed = false := by
  rw [read_fits_iff_errors, errors_read_closed, List.append_eq_nil_iff, List.append_eq_nil_iff,
    errorsIn_eq_nil_iff, ite_singleton_eq_nil_iff, ite_singleton_eq_nil_iff, and_comm]
  exact and_congr_left' (by omega)

theorem read_opened_fits_iff (parts : List Schema) (items : List Tree) :
    ((Schema.items parts any).read definitions (.ofList items)).failed = false ↔
      parts.length ≤ items.length ∧
        ∀ p ∈ parts.zip items, (p.1.read definitions p.2).failed = false := by
  rw [read_fits_iff_errors, errors_read_opened, List.append_eq_nil_iff, errorsIn_eq_nil_iff,
    ite_singleton_eq_nil_iff, Nat.not_lt, and_comm]

/-- What is reported of items, each error at the place of its item. -/
theorem map_reported_errorsIn (parts : List Schema) :
    (errorsIn definitions 0 parts items).map NodeError.reported =
      (parts.zip items).zipIdx.flatMap fun ((s, t), index) =>
        (s.read definitions t).reading.errors.map fun e =>
          (e.path.textFrom (Path.toItem index).text, e.message) := by
  simp only [errorsIn, List.map_flatMap, List.map_map, Function.comp_def, NodeError.reported_under]

/-- Texts that are descriptions of their own, between brackets and with commas between them,
describe lists by position. Each item of a tree is read as it would be alone, and its errors
are reported in place, in the order of the items. After them it is reported if an item is
missing, or, unless the list is open to any tail, if something is left over. -/
theorem read_fixedList {texts : List String} {parts : List Schema} (hNonempty : texts ≠ [])
    (hShown : ∀ text ∈ texts, ∃ c ∈ text.toList, Text.isBlank c = false)
    (hRead : texts.mapM Schema.ofText = .ok parts) (definitions : Definitions)
    (items : List Tree) :
    let t := Tree.ofList items
    let itemsFit := ∀ p ∈ parts.zip items, (p.1.read definitions p.2).failed = false
    let inItems := (parts.zip items).zipIdx.flatMap fun ((s, item), index) =>
      (s.read definitions item).reading.errors.map fun e =>
        (e.path.textFrom (Path.toItem index).text, e.message)
    let missing := if items.length < texts.length then
      [((Path.afterItems items.length).text, "Expected a tree, got nil")] else []
    let leftOver := if texts.length < items.length then
      [((Path.afterItems texts.length).text, "Expected nil")] else []
    (∀ closed, Schema.ofText ("[" ++ ",".intercalate texts ++ "]") = .ok closed →
      ((closed.read definitions t).failed = false ↔ items.length = texts.length ∧ itemsFit) ∧
      (closed.read definitions t).reading.errors.map NodeError.reported =
        inItems ++ (missing ++ leftOver)) ∧
    (∀ opened, Schema.ofText ("[" ++ ",".intercalate texts ++ ",...]") = .ok opened →
      ((opened.read definitions t).failed = false ↔ texts.length ≤ items.length ∧ itemsFit) ∧
      (opened.read definitions t).reading.errors.map NodeError.reported =
        inItems ++ missing) ∧
    ∀ u : Tree, u = .ofList u.items := by
  intro t itemsFit inItems missing leftOver
  have hTexts : List.Forall₂ (fun text s => Schema.ofText text = .ok s) texts parts := by
    have hEach := mapM_eq_ok_iff.mp hRead
    rw [← List.forall₂_eq_eq_eq, List.forall₂_map_left_iff, List.forall₂_map_right_iff] at hEach
    exact hEach
  have hLength : texts.length = parts.length := hTexts.length_eq
  have hItems : (errorsIn definitions 0 parts items).map NodeError.reported = inItems :=
    map_reported_errorsIn parts
  have hMissing : (if items.length < parts.length then
      [NodeError.mk (.afterItems items.length) .notPair] else []).map NodeError.reported =
        missing := by
    simp only [missing, hLength]
    split <;> rfl
  have hLeftOver : (if parts.length < items.length then
      [NodeError.mk (.afterItems parts.length) .notNil] else []).map NodeError.reported =
        leftOver := by
    simp only [leftOver, hLength]
    split <;> rfl
  refine ⟨fun closed hClosed => ?_, fun opened hOpened => ?_, fun u => u.ofList_items.symm⟩
  · have hSchema : closed = .items parts (named "nil") := by
      rcases ofText_closed hTexts hShown hNonempty with hAgain | ⟨span, hDeep⟩
      · exact Except.ok.inj (hClosed.symm.trans hAgain)
      · cases hClosed.symm.trans hDeep
    rw [hSchema, read_closed_fits_iff, errors_read_closed, hLength]
    refine ⟨Iff.rfl, ?_⟩
    rw [List.map_append, List.map_append, hItems, hMissing, hLeftOver]
  · have hSchema : opened = .items parts any := by
      rcases ofText_opened hTexts hShown hNonempty with hAgain | ⟨span, hDeep⟩
      · exact Except.ok.inj (hOpened.symm.trans hAgain)
      · cases hOpened.symm.trans hDeep
    rw [hSchema, read_opened_fits_iff, errors_read_opened, hLength]
    refine ⟨Iff.rfl, ?_⟩
    rw [List.map_append, hItems, hMissing]

/-- The first item does not fit, and the second is missing. -/
theorem read_fixedList_short :
    let texts := ["nil", "bool"]
    let parts := [named "nil", named "bool"]
    let closed := Schema.items parts (named "nil")
    let opened := Schema.items parts any
    let t := Tree.ofList [.ofBool true]
    let reported := [("$.left", "Expected nil"), ("$.right", "Expected a tree, got nil")]
    texts ≠ [] ∧ (∀ text ∈ texts, ∃ c ∈ text.toList, Text.isBlank c = false) ∧
    texts.mapM Schema.ofText = .ok parts ∧
    Schema.ofText "[nil,bool]" = .ok closed ∧ Schema.ofText "[nil,bool,...]" = .ok opened ∧
    ∀ definitions,
      (closed.read definitions t).failed = true ∧
      (closed.read definitions t).reading.errors.map NodeError.reported = reported ∧
      (opened.read definitions t).failed = true ∧
      (opened.read definitions t).reading.errors.map NodeError.reported = reported := by
  intro texts parts closed opened t reported
  have hNil : IsName "nil" := by decide
  have hBool : IsName "bool" := by decide
  have hShown : ∀ text ∈ texts, ∃ c ∈ text.toList, Text.isBlank c = false := by
    simp only [texts, List.forall_mem_cons]
    exact ⟨⟨'n', by decide, by decide⟩, ⟨'b', by decide, by decide⟩, List.forall_mem_nil _⟩
  have hRead : texts.mapM Schema.ofText = .ok parts := by
    rw [mapM_eq_ok_iff]
    simp only [texts, parts, List.map_cons, List.map_nil, ofText_name hNil, ofText_name hBool]
  have hSeparated {last : List Lexeme} (hLast : Separated last)
      (hStop : ¬ (Lexeme.identifier "bool").Continues (written last)) :
      Separated (.symbol .listOpen :: .identifier "nil" :: .symbol .comma ::
        .identifier "bool" :: last) :=
    .symbol (by decide) ⟨hNil, (by decide : ¬ isNameChar ',' = true),
      .symbol (by decide) ⟨hBool, hStop, hLast⟩⟩
  have hClosed : Schema.ofText "[nil,bool]" = .ok closed := by
    have hLast : Separated [.symbol .listClose] := .symbol (by decide) trivial
    have hText := ofText_placed (hSeparated hLast (by decide : ¬ isNameChar ']' = true))
    exact hText
  have hOpened : Schema.ofText "[nil,bool,...]" = .ok opened := by
    have hLast : Separated [.symbol .comma, .symbol .dots, .symbol .listClose] :=
      .symbol (by decide) (.symbol (by decide) (.symbol (by decide) trivial))
    have hText := ofText_placed (hSeparated hLast (by decide : ¬ isNameChar ',' = true))
    exact hText
  refine ⟨List.cons_ne_nil _ _, hShown, hRead, hClosed, hOpened, fun definitions => ?_⟩
  obtain ⟨hClosedRead, hOpenedRead, -⟩ :=
    read_fixedList (List.cons_ne_nil _ _) hShown hRead definitions [.ofBool true]
  obtain ⟨hClosedFits, hClosedErrors⟩ := hClosedRead _ hClosed
  obtain ⟨hOpenedFits, hOpenedErrors⟩ := hOpenedRead _ hOpened
  have hItem : ((named "nil").read definitions (.ofBool true)).reading.errors = [⟨[], .notNil⟩] :=
    errors_read_nil (.ofBool true)
  have hPairs : (parts.zip [Tree.ofBool true]).zipIdx = [((named "nil", .ofBool true), 0)] := rfl
  simp only [hPairs, List.flatMap_singleton, hItem] at hClosedErrors hOpenedErrors
  rw [hClosedErrors, hOpenedErrors, ← Bool.not_eq_false, ← Bool.not_eq_false, hClosedFits,
    hOpenedFits]
  exact ⟨fun h => absurd h.1 (by decide), rfl, fun h => absurd h.1 (by decide), rfl⟩

end Schema

end TreeSchema
