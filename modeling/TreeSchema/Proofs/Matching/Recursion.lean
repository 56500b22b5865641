import TreeSchema.Matching

/-! How the reading of a tree recurs. A choice hands the same node to its
alternatives and an entered name hands it to its schema; pairs and lists hand on
children, below which no name is being expanded. The equations here are all that
later proofs use of the reader, and the induction follows its calls. -/
namespace TreeSchema

/-- The outcome of a choice, from the outcomes of its alternatives. -/
def Outcome.choose (t : Tree) (alternatives : List Alternative)
    (outcome : Alternative → Outcome) : Outcome :=
  match alternatives with
  | [only] => outcome only
  | _ => ((alternatives.map outcome).find? (!·.failed)).getD (.refuse t (.noneOf alternatives))

namespace Outcome

/-- A choice gives the outcome of a member, or refuses the tree when all fail. -/
theorem choose_cases (t : Tree) (alternatives : List Alternative)
    (outcome : Alternative → Outcome) :
    (∃ a ∈ alternatives, choose t alternatives outcome = outcome a) ∨
      choose t alternatives outcome = .refuse t (.noneOf alternatives) := by
  unfold choose
  split
  · next only => exact .inl ⟨only, by simp, rfl⟩
  · cases hFound : (alternatives.map outcome).find? (!·.failed) with
    | none => exact .inr rfl
    | some found =>
        obtain ⟨a, hMember, rfl⟩ := List.mem_map.mp (List.mem_of_find?_eq_some hFound)
        exact .inl ⟨a, hMember, rfl⟩

/-- A choice asks nothing but the outcomes of its members. -/
theorem choose_congr {t : Tree} {alternatives : List Alternative}
    {outcome outcome' : Alternative → Outcome}
    (h : ∀ a ∈ alternatives, outcome a = outcome' a) :
    choose t alternatives outcome = choose t alternatives outcome' := by
  unfold choose
  split
  · next only => exact h only List.mem_cons_self
  · rw [List.map_congr_left h]

/-- A choice fits exactly if one of its members does. -/
theorem choose_fits_iff (t : Tree) (alternatives : List Alternative)
    (outcome : Alternative → Outcome) :
    (choose t alternatives outcome).failed = false ↔
      ∃ a ∈ alternatives, (outcome a).failed = false := by
  unfold choose
  split
  · simp
  · cases hFound : (alternatives.map outcome).find? (!·.failed) with
    | none =>
        have hAll := List.find?_eq_none.mp hFound
        simp only [List.mem_map, forall_exists_index, and_imp, forall_apply_eq_imp_iff₂,
          Bool.not_eq_true', Bool.not_eq_false] at hAll
        simp only [Option.getD_none, refuse, fails, Bool.true_eq_false, false_iff, not_exists,
          not_and, Bool.not_eq_false]
        exact hAll
    | some found =>
        have hFits := List.find?_some hFound
        obtain ⟨a, hMember, rfl⟩ := List.mem_map.mp (List.mem_of_find?_eq_some hFound)
        simp only [Bool.not_eq_true'] at hFits
        exact ⟨fun _ => ⟨a, hMember, hFits⟩, fun _ => hFits⟩

end Outcome

section

variable (definitions : Definitions) (expanding : List String)

theorem Alternative.firstFit_eq_find? (alternatives : List Alternative) (t : Tree) :
    Alternative.firstFit definitions expanding alternatives t =
      (alternatives.map (·.decode definitions expanding t)).find? (!·.failed) := by
  induction alternatives with
  | nil => rw [Alternative.firstFit]; rfl
  | cons first others ih =>
      rw [Alternative.firstFit, List.map_cons, List.find?_cons, ih]
      cases (first.decode definitions expanding t).failed <;> rfl

@[simp] theorem Alternative.decode_schema (s : Schema) (t : Tree) :
    (Alternative.schema s).decode definitions expanding t = s.decode definitions expanding t := by
  rw [Alternative.decode]

theorem Schema.decode_choice (alternatives : List Alternative) (t : Tree) :
    (Schema.choice alternatives).decode definitions expanding t =
      .choose t alternatives (·.decode definitions expanding t) := by
  unfold Outcome.choose
  split
  · rw [Schema.decode]
  · next hMany => rw [Schema.decode, Alternative.firstFit_eq_find?]; exact hMany

theorem Schema.decode_list (item : Schema) (t : Tree) :
    (Schema.list item).decode definitions expanding t =
      .ofItems (t.items.map (item.decode definitions [])) := by
  rw [Schema.decode]
  exact congrArg Outcome.ofItems (List.attach_map_val)

theorem Schema.decode_pair_nil (left right : Schema) :
    (Schema.pair left right).decode definitions expanding .nil =
      .fails (.ofValue .nil) .notPair := by
  rw [Schema.decode]

theorem Schema.decode_pair_node (left right : Schema) (l r : Tree) :
    (Schema.pair left right).decode definitions expanding (.node l r) =
      .ofPair (left.decode definitions [] l) (right.decode definitions [] r) := by
  rw [Schema.decode]

theorem Alternative.decode_number (n : UInt64) (t : Tree) :
    (Alternative.atom (.number n)).decode definitions expanding t = matchNumber (some n) t := by
  rw [Alternative.decode]

end

section

variable {definitions : Definitions} {expanding : List String} {name : String} {s : Schema}

theorem Alternative.decode_builtIn {builtIn : BuiltIn} (t : Tree)
    (h : BuiltIn.ofName? name = some builtIn) :
    (Alternative.atom (.named name)).decode definitions expanding t = builtIn.decode t := by
  rw [Alternative.decode, h]

theorem Schema.decode_builtIn {builtIn : BuiltIn} (t : Tree)
    (h : BuiltIn.ofName? name = some builtIn) :
    (Schema.named name).decode definitions expanding t = builtIn.decode t := by
  rw [named, decode_choice]
  exact Alternative.decode_builtIn t h

theorem Alternative.decode_unknown (t : Tree) (hOther : BuiltIn.ofName? name = none)
    (h : definitions.get? name = none) :
    (Alternative.atom (.named name)).decode definitions expanding t =
      .refuse t (.unknown name) := by
  rw [Alternative.decode, hOther]
  dsimp only
  split
  · rfl
  · next hFound => rw [h] at hFound; cases hFound

theorem Alternative.decode_circular (t : Tree) (hOther : BuiltIn.ofName? name = none)
    (h : definitions.get? name = some s) (hPending : name ∈ expanding) :
    (Alternative.atom (.named name)).decode definitions expanding t =
      .refuse t (.circular name) := by
  rw [Alternative.decode, hOther]
  dsimp only
  split
  · next hFound => rw [h] at hFound; cases hFound
  · rw [dif_pos hPending]

theorem Alternative.decode_defined (t : Tree) (hOther : BuiltIn.ofName? name = none)
    (h : definitions.get? name = some s) (hFresh : name ∉ expanding) :
    (Alternative.atom (.named name)).decode definitions expanding t =
      (s.decode definitions (name :: expanding) t).viaName name := by
  rw [Alternative.decode, hOther]
  dsimp only
  split
  · next hFound => rw [h] at hFound; cases hFound
  · next hFound =>
      rw [h] at hFound
      cases hFound
      rw [dif_neg hFresh]

end

/-- Induction along the calls of the reader. At a name it distinguishes what the
reader distinguishes; only a fresh, defined name leads to another call. -/
theorem Alternative.decode_induction (definitions : Definitions)
    {motive : List String → Alternative → Tree → Prop}
    (number : ∀ expanding n t, motive expanding (.atom (.number n)) t)
    (builtIn : ∀ expanding name b t, BuiltIn.ofName? name = some b →
      motive expanding (.atom (.named name)) t)
    (unknown : ∀ expanding name t, BuiltIn.ofName? name = none → definitions.get? name = none →
      motive expanding (.atom (.named name)) t)
    (circular : ∀ expanding name s t, BuiltIn.ofName? name = none →
      definitions.get? name = some s → name ∈ expanding → motive expanding (.atom (.named name)) t)
    (defined : ∀ expanding name s t, BuiltIn.ofName? name = none →
      definitions.get? name = some s → name ∉ expanding →
      motive (name :: expanding) (.schema s) t → motive expanding (.atom (.named name)) t)
    (choice : ∀ expanding alternatives t, (∀ a ∈ alternatives, motive expanding a t) →
      motive expanding (.schema (.choice alternatives)) t)
    (list : ∀ expanding item t, (∀ t' ∈ t.items, motive [] (.schema item) t') →
      motive expanding (.schema (.list item)) t)
    (leaf : ∀ expanding left right, motive expanding (.schema (.pair left right)) .nil)
    (pair : ∀ expanding left right l r, motive [] (.schema left) l → motive [] (.schema right) r →
      motive expanding (.schema (.pair left right)) (.node l r)) :
    ∀ expanding a t, motive expanding a t := by
  intro expanding a t
  match a, t with
  | .atom (.number n), t => exact number expanding n t
  | .atom (.named name), t =>
      cases hName : BuiltIn.ofName? name with
      | some b => exact builtIn expanding name b t hName
      | none =>
          cases hFound : definitions.get? name with
          | none => exact unknown expanding name t hName hFound
          | some s =>
              by_cases hPending : name ∈ expanding
              · exact circular expanding name s t hName hFound hPending
              · have hLess := Definitions.unexpanded_cons_lt
                  (NameTable.mem_names_of_get? hFound) hPending
                exact defined expanding name s t hName hFound hPending
                  (decode_induction definitions number builtIn unknown circular defined choice list
                    leaf pair (name :: expanding) (.schema s) t)
  | .schema (.choice alternatives), t =>
      refine choice expanding alternatives t fun a hMember => ?_
      have hLess := List.sizeOf_lt_of_mem hMember
      exact decode_induction definitions number builtIn unknown circular defined choice list leaf
        pair expanding a t
  | .schema (.list item), t =>
      refine list expanding item t fun t' hMember => ?_
      have hLess := Tree.sizeOf_lt_of_mem_items hMember
      exact decode_induction definitions number builtIn unknown circular defined choice list leaf
        pair [] (.schema item) t'
  | .schema (.pair left right), .nil => exact leaf expanding left right
  | .schema (.pair left right), .node l r =>
      exact pair expanding left right l r
        (decode_induction definitions number builtIn unknown circular defined choice list leaf pair
          [] (.schema left) l)
        (decode_induction definitions number builtIn unknown circular defined choice list leaf pair
          [] (.schema right) r)
  termination_by expanding a t => (sizeOf t, definitions.unexpanded expanding, sizeOf a)

/-- What is read of a tree where no other schema is asked. -/
inductive Outcome.Leaf : Tree → Outcome → Prop where
  | nil : Leaf .nil (.fits (.ofValue .nil))
  | number {t : Tree} {n : UInt64} (isNumber : t.number? = some n) :
      Leaf t (.fits (.ofValue (.number n)))
  | boolean {t : Tree} {b : Bool} (isBoolean : t.bool? = some b) :
      Leaf t (.fits (.ofValue (.boolean b)))
  | mirrored (t : Tree) : Leaf t (.fits (.ofTree t))
  | refused (t : Tree) (m : Mismatch) (whole : ∀ n, m ≠ .otherThan n) : Leaf t (.refuse t m)
  | otherThan {t : Tree} {n wanted : UInt64} (isNumber : t.number? = some n)
      (differs : n ≠ wanted) : Leaf t (.fails (.ofValue (.number n)) (.otherThan wanted))

theorem leaf_matchNumber (wanted : Option UInt64) (t : Tree) :
    Outcome.Leaf t (matchNumber wanted t) := by
  unfold matchNumber
  split
  · exact .refused t _ nofun
  · next n wanted hNumber =>
      split
      · exact .number hNumber
      · next hDiffers => exact .otherThan hNumber hDiffers
  · next hNumber => exact .number hNumber

theorem leaf_matchBoolean (wanted : Option Bool) (t : Tree) :
    Outcome.Leaf t (matchBoolean wanted t) := by
  unfold matchBoolean
  split
  · next hBool => exact .boolean hBool
  · next hBool =>
      split
      · exact .boolean hBool
      · exact .refused t _ nofun
  · exact .refused t _ nofun
  · exact .refused t _ nofun

theorem BuiltIn.leaf_decode (b : BuiltIn) (t : Tree) : Outcome.Leaf t (b.decode t) := by
  cases b with
  | nil =>
      rw [BuiltIn.decode]
      split
      · next hNil =>
          rw [hNil]
          exact .nil
      · exact .refused t _ nofun
  | any => exact .mirrored t
  | int => exact leaf_matchNumber _ t
  | true => exact leaf_matchBoolean _ t
  | false => exact leaf_matchBoolean _ t
  | bool => exact leaf_matchBoolean _ t

/-- How an outcome is made from those of the calls. It leaves open which member of a choice
decides and why a leaf is what it is, on which most of what holds of all outcomes does not
depend. -/
inductive Alternative.Yields (definitions : Definitions) :
    List String → Alternative → Tree → Outcome → Prop where
  | leaf {expanding : List String} {a : Alternative} {t : Tree} {o : Outcome}
      (leaf : Outcome.Leaf t o) : Yields definitions expanding a t o
  | defined {expanding : List String} {name : String} {s : Schema} {t : Tree} {o : Outcome}
      (other : BuiltIn.ofName? name = none) (found : definitions.get? name = some s)
      (fresh : name ∉ expanding) (yields : Yields definitions (name :: expanding) (.schema s) t o) :
      Yields definitions expanding (.atom (.named name)) t (o.viaName name)
  | choice {expanding : List String} {alternatives : List Alternative} {a : Alternative}
      {t : Tree} {o : Outcome} (member : a ∈ alternatives)
      (yields : Yields definitions expanding a t o) :
      Yields definitions expanding (.schema (.choice alternatives)) t o
  | list {expanding : List String} {item : Schema} {t : Tree} {outcome : Tree → Outcome}
      (yields : ∀ t' ∈ t.items, Yields definitions [] (.schema item) t' (outcome t')) :
      Yields definitions expanding (.schema (.list item)) t (.ofItems (t.items.map outcome))
  | pair {expanding : List String} {left right : Schema} {l r : Tree} {o o' : Outcome}
      (yieldsLeft : Yields definitions [] (.schema left) l o)
      (yieldsRight : Yields definitions [] (.schema right) r o') :
      Yields definitions expanding (.schema (.pair left right)) (.node l r) (.ofPair o o')

theorem Alternative.yields_decode (definitions : Definitions) (expanding : List String)
    (a : Alternative) (t : Tree) :
    a.Yields definitions expanding t (a.decode definitions expanding t) := by
  induction expanding, a, t using decode_induction definitions with
  | number expanding n t =>
      rw [decode_number]
      exact .leaf (leaf_matchNumber _ t)
  | builtIn expanding name b t hName =>
      rw [decode_builtIn t hName]
      exact .leaf (b.leaf_decode t)
  | unknown expanding name t hOther hNone =>
      rw [decode_unknown t hOther hNone]
      exact .leaf (.refused t _ nofun)
  | circular expanding name s t hOther hFound hPending =>
      rw [decode_circular t hOther hFound hPending]
      exact .leaf (.refused t _ nofun)
  | defined expanding name s t hOther hFound hFresh ih =>
      rw [decode_schema] at ih
      rw [decode_defined t hOther hFound hFresh]
      exact .defined hOther hFound hFresh ih
  | choice expanding alternatives t ih =>
      rw [decode_schema, Schema.decode_choice]
      rcases Outcome.choose_cases t alternatives (·.decode definitions expanding t) with
        ⟨a, hMember, hChosen⟩ | hRefused
      · rw [hChosen]
        exact .choice hMember (ih a hMember)
      · rw [hRefused]
        exact .leaf (.refused t _ nofun)
  | list expanding item t ih =>
      simp only [decode_schema] at ih
      rw [decode_schema, Schema.decode_list]
      exact .list ih
  | leaf expanding left right =>
      rw [decode_schema, Schema.decode_pair_nil]
      exact .leaf (.refused .nil _ nofun)
  | pair expanding left right l r ihLeft ihRight =>
      rw [decode_schema] at ihLeft ihRight
      rw [decode_schema, Schema.decode_pair_node]
      exact .pair ihLeft ihRight

theorem Schema.yields_read (definitions : Definitions) (s : Schema) (t : Tree) :
    (Alternative.schema s).Yields definitions [] t (s.read definitions t) := by
  rw [read, ← Alternative.decode_schema]
  exact Alternative.yields_decode ..

end TreeSchema
