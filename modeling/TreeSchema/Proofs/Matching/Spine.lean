import TreeSchema.Proofs.Matching.Abbreviation

/-! Lists and numbers by recursion. The reader has loops for lists and for numbers, which run
along the right spine of a tree. A name can say the same: it stands for nil, or for a pair of
an item and what the name stands for. One and the same trees fit, except that a number must
not exceed 64 bits. The items may lead back to the name in any way, since membership in what
a name stands for does not depend on where the name is entered. -/
namespace TreeSchema

namespace Schema

/-- What a name stands for in order to be a list: nil, or an item before another list. -/
def spine (item : Schema) (name : String) : Schema :=
  .choice [.schema (.pair item (.named name)), .atom (.named "nil")]

variable {definitions : Definitions}

theorem admits_named_iff {name : String} {t : Tree} :
    (Schema.named name).Admits definitions t ↔
      (Alternative.atom (.named name)).Admits definitions t := by
  rw [named, admits_choice_iff]
  simp only [List.mem_singleton, exists_eq_left]

theorem admits_named_builtIn_iff {name : String} (hBuiltIn : name ∈ BuiltIn.names) (t : Tree) :
    (Schema.named name).Admits definitions t ↔ BuiltIn.Admits name t := by
  rw [admits_named_iff]
  constructor
  · intro h
    cases h with
    | builtIn admits => exact admits
    | defined other => exact absurd hBuiltIn other
  · exact .builtIn

theorem admits_nil_iff (t : Tree) : (Schema.named "nil").Admits definitions t ↔ t = .nil :=
  admits_named_builtIn_iff (by decide) t

theorem admits_int_iff (t : Tree) :
    (Schema.named "int").Admits definitions t ↔ ∃ n, n < 2 ^ 64 ∧ t = .ofNat n :=
  admits_named_builtIn_iff (by decide) t

theorem admits_spine_iff {item : Schema} {name : String} {t : Tree} :
    (spine item name).Admits definitions t ↔ t = .nil ∨ ∃ l r, t = .node l r ∧
      item.Admits definitions l ∧ (Schema.named name).Admits definitions r := by
  rw [spine, admits_choice_iff]
  simp only [List.exists_mem_cons_iff, List.not_mem_nil, false_and, exists_false, or_false]
  rw [← admits_named_iff, admits_nil_iff, or_comm]
  exact or_congr_right admits_pair_iff

/-- Induction along the right spine. Nothing is needed of the items, whose membership is the
same on both sides. -/
theorem admits_named_spine_iff {item : Schema} {name : String} (hOther : name ∉ BuiltIn.names)
    (hFound : definitions.get? name = some (spine item name)) (t : Tree) :
    (Schema.named name).Admits definitions t ↔ (Schema.list item).Admits definitions t := by
  have hUnfold (t : Tree) :
      (Schema.named name).Admits definitions t ↔ (spine item name).Admits definitions t := by
    rw [admits_named_iff, ← admits_definition_iff hOther hFound, admits_toAlternative_iff]
  -- The name is unfolded first: what is left to show of the rest of the spine has it again.
  rw [hUnfold, admits_spine_iff, admits_list_iff]
  induction t with
  | nil => simp [Tree.items]
  | node left right _ ih =>
      rw [← admits_spine_iff, ← hUnfold] at ih
      simp [Tree.items, ih]

/-- Only the bound of 64 bits tells numbers from lists of `nil`s. -/
theorem admits_int_iff_list_nil (t : Tree) :
    (Schema.named "int").Admits definitions t ↔
      t.items.length < 2 ^ 64 ∧ (Schema.list (.named "nil")).Admits definitions t := by
  rw [admits_int_iff, admits_list_iff]
  simp only [admits_nil_iff]
  rw [← Tree.eq_ofNat_iff]
  constructor
  · rintro ⟨n, hBound, rfl⟩
    rw [Tree.length_items_ofNat]
    exact ⟨hBound, rfl⟩
  · rintro ⟨hBound, hNumber⟩
    exact ⟨_, hBound, hNumber⟩

/-- A list and a name that stands for it by recursion find fault with the same trees, whatever
the items are and however they lead back to the name. So do numbers, lists of `nil`s and a name
that stands for these by recursion, on a right spine of less than `2 ^ 64` nodes. -/
theorem read_spine (definitions : Definitions) :
    (∀ (item : Schema) (name : String), name ∉ BuiltIn.names →
      definitions.get? name = some (spine item name) → ∀ t : Tree,
        ((Schema.list item).read definitions t).failed =
          ((Schema.named name).read definitions t).failed) ∧
    ∀ t : Tree, t.items.length < 2 ^ 64 →
      ((Schema.named "int").read definitions t).failed =
        ((Schema.list (.named "nil")).read definitions t).failed ∧
      ∀ name, name ∉ BuiltIn.names →
        definitions.get? name = some (spine (.named "nil") name) →
          ((Schema.named "int").read definitions t).failed =
            ((Schema.named name).read definitions t).failed := by
  constructor
  · intro item name hOther hFound t
    exact failed_read_congr (admits_named_spine_iff hOther hFound t).symm
  · intro t hBound
    have hNumbers : (Schema.named "int").Admits definitions t ↔
        (Schema.list (.named "nil")).Admits definitions t :=
      (admits_int_iff_list_nil t).trans (and_iff_right hBound)
    refine ⟨failed_read_congr hNumbers, fun name hOther hFound => failed_read_congr ?_⟩
    rw [hNumbers, admits_named_spine_iff hOther hFound]

/-- The items of a forest are forests themselves, or numbers. -/
theorem read_spine_forest :
    let tree := Schema.choice [.atom (.named "forest"), .atom (.named "nat")]
    let definitions :=
      NameTable.ofPairs [("forest", spine tree "forest"), ("nat", spine (.named "nil") "nat")]
    ("forest" ∉ BuiltIn.names ∧ definitions.get? "forest" = some (spine tree "forest") ∧
      ∀ t : Tree, ((Schema.list tree).read definitions t).failed =
        ((Schema.named "forest").read definitions t).failed) ∧
    "nat" ∉ BuiltIn.names ∧ definitions.get? "nat" = some (spine (.named "nil") "nat") ∧
      (Tree.ofNat 3).items.length < 2 ^ 64 ∧
      ((Schema.named "int").read definitions (.ofNat 3)).failed =
        ((Schema.list (.named "nil")).read definitions (.ofNat 3)).failed ∧
      ((Schema.named "int").read definitions (.ofNat 3)).failed =
        ((Schema.named "nat").read definitions (.ofNat 3)).failed := by
  intro tree definitions
  have hForest : definitions.get? "forest" = some (spine tree "forest") := by decide +kernel
  have hNat : definitions.get? "nat" = some (spine (.named "nil") "nat") := by decide +kernel
  have hBound : (Tree.ofNat 3).items.length < 2 ^ 64 := by
    rw [Tree.length_items_ofNat]
    decide
  obtain ⟨hLists, hNumbers⟩ := read_spine definitions
  obtain ⟨hList, hName⟩ := hNumbers (.ofNat 3) hBound
  exact ⟨⟨by decide, hForest, hLists tree "forest" (by decide) hForest⟩, by decide, hNat, hBound,
    hList, hName "nat" (by decide) hNat⟩

end Schema

end TreeSchema
