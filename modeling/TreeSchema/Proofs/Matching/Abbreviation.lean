import TreeSchema.Proofs.Matching.FirstFit
import TreeSchema.Proofs.Matching.Productive
import TreeSchema.Proofs.NameTable

/-! Names as abbreviations. A name and the schema that it stands for have the same members,
so the same trees fit when the one is put in the place of the other. The reader enters the
name in the one case and not in the other. By definitions that may be circular, different
alternatives can then be cut short; by productive ones none is, and what is read of a tree
that fits is the same up to the names that are noted on it. -/
namespace TreeSchema

mutual

/-- The schema with what a name stands for in place of the name. -/
def Schema.unfolded : Schema → String → Schema → Schema
  | .choice alternatives, name, definition =>
      .choice (Alternative.unfoldedAll alternatives name definition)
  | .list item, name, definition => .list (item.unfolded name definition)
  | .pair left right, name, definition =>
      .pair (left.unfolded name definition) (right.unfolded name definition)

def Alternative.unfolded : Alternative → String → Schema → Alternative
  | .atom a, name, definition => if a = .named name then definition.toAlternative else .atom a
  | .schema s, name, definition => .schema (s.unfolded name definition)

def Alternative.unfoldedAll : List Alternative → String → Schema → List Alternative
  | [], _, _ => []
  | a :: as, name, definition =>
      a.unfolded name definition :: Alternative.unfoldedAll as name definition

end

namespace Reading

mutual

/-- A reading without the names that are noted on its nodes. -/
def unlabelled : Reading → Reading
  | value v remarks => value v { remarks with aliases := [] }
  | pair left right remarks => pair left.unlabelled right.unlabelled { remarks with aliases := [] }
  | list items remarks => list (unlabelledAll items) { remarks with aliases := [] }

def unlabelledAll : List Reading → List Reading
  | [] => []
  | item :: items => item.unlabelled :: unlabelledAll items

end

theorem unlabelledAll_eq_map (items : List Reading) :
    unlabelledAll items = items.map unlabelled := by
  induction items with
  | nil => rfl
  | cons item items ih => rw [unlabelledAll, List.map_cons, ih]

end Reading

namespace Outcome

/-- An outcome without the names that are noted on the reading. -/
def unlabelled (o : Outcome) : Outcome :=
  { o with reading := o.reading.unlabelled }

theorem unlabelled_viaName (o : Outcome) (name : String) :
    (o.viaName name).unlabelled = o.unlabelled := by
  obtain ⟨r, failed⟩ := o
  cases r <;> simp only [unlabelled, viaName, Reading.viaName, Reading.remark, Reading.unlabelled]

theorem unlabelled_ofPair (left right : Outcome) :
    (ofPair left right).unlabelled = ofPair left.unlabelled right.unlabelled := by
  simp only [unlabelled, ofPair, Reading.ofPair, Reading.unlabelled]

theorem unlabelled_ofItems (items : List Outcome) :
    (ofItems items).unlabelled = ofItems (items.map unlabelled) := by
  simp only [unlabelled, ofItems, Reading.ofItems, Reading.unlabelled,
    Reading.unlabelledAll_eq_map, List.map_map, List.any_map]
  rfl

theorem fit?_unlabelled (o : Outcome) : o.unlabelled.fit? = o.fit?.map unlabelled := by
  cases hFailed : o.failed with
  | false => rw [fit?_of_fits hFailed, fit?_of_fits (o := o.unlabelled) hFailed]; rfl
  | true => rw [fit?_of_failed hFailed, fit?_of_failed (o := o.unlabelled) hFailed]; rfl

end Outcome

theorem Alternative.unfoldedAll_eq_map (alternatives : List Alternative) (name : String)
    (definition : Schema) :
    Alternative.unfoldedAll alternatives name definition =
      alternatives.map (·.unfolded name definition) := by
  induction alternatives with
  | nil => rfl
  | cons a as ih => rw [Alternative.unfoldedAll, ih, List.map_cons]

/-- An alternative of its own and the schema that it is made from are read alike. -/
theorem Schema.decode_toAlternative (definitions : Definitions) (expanding : List String)
    (s : Schema) (t : Tree) :
    s.toAlternative.decode definitions expanding t = s.decode definitions expanding t := by
  match s with
  | .choice [only] =>
      rw [decode_choice]
      rfl
  | .choice [] | .choice (_ :: _ :: _) | .list _ | .pair _ _ => exact Alternative.decode_schema ..

section

variable {definitions : Definitions} {name : String} {definition : Schema}

/-! Which trees fit. -/

theorem Schema.admits_toAlternative_iff {s : Schema} {t : Tree} :
    s.toAlternative.Admits definitions t ↔ s.Admits definitions t := by
  match s with
  | .choice [only] =>
      rw [admits_choice_iff]
      simp only [List.mem_singleton, exists_eq_left]
      rfl
  | .choice [] | .choice (_ :: _ :: _) | .list _ | .pair _ _ => exact Iff.rfl

/-- A name and the schema that it stands for have the same members, circular or not. -/
theorem Schema.admits_definition_iff (hOther : name ∉ BuiltIn.names)
    (hFound : definitions.get? name = some definition) (t : Tree) :
    definition.toAlternative.Admits definitions t ↔
      (Alternative.atom (.named name)).Admits definitions t := by
  rw [admits_toAlternative_iff]
  constructor
  · exact .defined hOther hFound
  · intro h
    cases h with
    | builtIn admits =>
        have hNone := (BuiltIn.ofName?_eq_none_iff name).mpr hOther
        exact absurd admits (BuiltIn.not_admits_of_ofName? t hNone)
    | defined _ found admits =>
        rw [hFound] at found
        cases found
        exact admits

mutual

theorem Schema.admits_unfolded_iff
    (h : ∀ t, definition.toAlternative.Admits definitions t ↔
      (Alternative.atom (.named name)).Admits definitions t) : (s : Schema) → (t : Tree) →
    ((s.unfolded name definition).Admits definitions t ↔ s.Admits definitions t)
  | .choice alternatives, t => by
      rw [Schema.unfolded, Schema.admits_choice_iff, Schema.admits_choice_iff]
      exact Alternative.exists_admits_unfolded_iff h alternatives t
  | .list item, t => by
      rw [Schema.unfolded, Schema.admits_list_iff, Schema.admits_list_iff]
      exact forall₂_congr fun t' _ => Schema.admits_unfolded_iff h item t'
  | .pair left right, t => by
      simp only [Schema.unfolded, Schema.admits_pair_iff, Schema.admits_unfolded_iff h left,
        Schema.admits_unfolded_iff h right]

theorem Alternative.admits_unfolded_iff
    (h : ∀ t, definition.toAlternative.Admits definitions t ↔
      (Alternative.atom (.named name)).Admits definitions t) : (a : Alternative) → (t : Tree) →
    ((a.unfolded name definition).Admits definitions t ↔ a.Admits definitions t)
  | .atom a, t => by
      rw [Alternative.unfolded]
      split
      · next hUse =>
          rw [hUse]
          exact h t
      · exact Iff.rfl
  | .schema s, t => Schema.admits_unfolded_iff h s t

theorem Alternative.exists_admits_unfolded_iff
    (h : ∀ t, definition.toAlternative.Admits definitions t ↔
      (Alternative.atom (.named name)).Admits definitions t) :
    (as : List Alternative) → (t : Tree) →
    ((∃ a ∈ Alternative.unfoldedAll as name definition, a.Admits definitions t) ↔
      ∃ a ∈ as, a.Admits definitions t)
  | [], t => by rw [Alternative.unfoldedAll]
  | a :: as, t => by
      rw [Alternative.unfoldedAll, List.exists_mem_cons_iff, List.exists_mem_cons_iff,
        Alternative.admits_unfolded_iff h a t, Alternative.exists_admits_unfolded_iff h as t]

end

/-! How trees that fit are read. -/

variable (hOther : name ∉ BuiltIn.names) (hFound : definitions.get? name = some definition)

include hOther hFound

/-- The name is entered before its schema is read, which by productive definitions makes no
difference. -/
theorem Alternative.unlabelled_decode_unfolded_name (hProductive : definitions.Productive)
    {expanding : List String} (t : Tree)
    (h : (Alternative.atom (.named name)).Behind definitions expanding) :
    (definition.toAlternative.decode definitions expanding t).unlabelled =
      ((Alternative.atom (.named name)).decode definitions expanding t).unlabelled := by
  have hNone := (BuiltIn.ofName?_eq_none_iff name).mpr hOther
  have hSame := decode_eq_of_behind hProductive (name :: expanding) (.schema definition) t
    (h.enter hOther hFound) expanding (h.definition hOther hFound)
  rw [decode_schema, decode_schema] at hSame
  rw [Schema.decode_toAlternative, decode_defined t hNone hFound (h.fresh hProductive),
    Outcome.unlabelled_viaName, hSame]

theorem Alternative.fit?_decode_unfolded (hProductive : definitions.Productive)
    (expanding : List String) (a : Alternative) (t : Tree) (h : a.Behind definitions expanding) :
    ((a.unfolded name definition).decode definitions expanding t).unlabelled.fit? =
      (a.decode definitions expanding t).unlabelled.fit? := by
  induction expanding, a, t using decode_induction definitions with
  | number expanding n t => rfl
  | builtIn expanding other b t hName | unknown expanding other t hName
  | circular expanding other s t hName | defined expanding other s t hName =>
      -- Any other atom stays as it is, so only the name itself is left to compare.
      rw [Alternative.unfolded]
      split
      · next hUse =>
          cases hUse
          exact congrArg _ (unlabelled_decode_unfolded_name hOther hFound hProductive t h)
      · rfl
  | choice expanding alternatives t ih =>
      have hMembers (a : Alternative) (hMember : a ∈ alternatives) :=
        ih a hMember (h.member hMember)
      simp only [Outcome.fit?_unlabelled] at hMembers ⊢
      rw [Alternative.unfolded, decode_schema, decode_schema, Schema.unfolded,
        Schema.fit?_decode_choice, Schema.fit?_decode_choice, unfoldedAll_eq_map,
        List.findSome?_map, List.map_findSome?, List.map_findSome?]
      exact findSome?_congr hMembers
  | list expanding item t ih =>
      have hItems (t' : Tree) (hMember : t' ∈ t.items) := ih t' hMember (behind_nil _)
      simp only [Alternative.unfolded, decode_schema] at hItems
      rw [Alternative.unfolded, decode_schema, decode_schema, Schema.unfolded, Schema.decode_list,
        Schema.decode_list, Outcome.unlabelled_ofItems, Outcome.unlabelled_ofItems, List.map_map,
        List.map_map]
      exact Outcome.fit?_ofItems_congr hItems
  | leaf expanding left right =>
      rw [Alternative.unfolded, decode_schema, decode_schema, Schema.unfolded,
        Schema.decode_pair_nil, Schema.decode_pair_nil]
  | pair expanding left right l r ihLeft ihRight =>
      have hLeft := ihLeft (behind_nil _)
      have hRight := ihRight (behind_nil _)
      rw [Alternative.unfolded, decode_schema, decode_schema] at hLeft hRight
      rw [Alternative.unfolded, decode_schema, decode_schema, Schema.unfolded,
        Schema.decode_pair_node, Schema.decode_pair_node, Outcome.unlabelled_ofPair,
        Outcome.unlabelled_ofPair]
      exact Outcome.fit?_ofPair_congr hLeft hRight

end

/-- With what a name stands for in place of the name the same trees fit, also by circular
definitions. By productive ones, a tree that fits is read in the same way, up to the names
that are noted. -/
theorem Schema.read_unfolded {definitions : Definitions} {name : String} {definition : Schema}
    (hOther : name ∉ BuiltIn.names) (hFound : definitions.get? name = some definition)
    (s : Schema) (t : Tree) :
    ((s.unfolded name definition).read definitions t).failed = (s.read definitions t).failed ∧
      (definitions.Productive → (s.read definitions t).failed = false →
        ((s.unfolded name definition).read definitions t).reading.unlabelled =
          (s.read definitions t).reading.unlabelled) := by
  have hFailed : ((s.unfolded name definition).read definitions t).failed =
      (s.read definitions t).failed := by
    apply Schema.failed_read_congr
    exact Schema.admits_unfolded_iff (Schema.admits_definition_iff hOther hFound) s t
  refine ⟨hFailed, fun hProductive hFits => ?_⟩
  have hFit := Alternative.fit?_decode_unfolded hOther hFound hProductive [] (.schema s) t
    (Alternative.behind_nil _)
  rw [Alternative.unfolded, Alternative.decode_schema, Alternative.decode_schema] at hFit
  exact congrArg Outcome.reading ((Outcome.fit?_eq_iff.mp hFit).2 (hFailed.trans hFits))

/-- `cell` as `int|<row.cell>`, and `row` as `cell|nil`: circular, but only through pairs. -/
def Definitions.layered : Definitions :=
  NameTable.insert
    (NameTable.insert .empty "cell"
      (.choice [.atom (.named "int"), .schema (.pair (.named "row") (.named "cell"))]))
    "row" (.choice [.atom (.named "cell"), .atom (.named "nil")])

theorem Definitions.get?_layered (name : String) :
    Definitions.layered.get? name =
      if name = "row" then some (.choice [.atom (.named "cell"), .atom (.named "nil")])
      else if name = "cell" then
        some (.choice [.atom (.named "int"), .schema (.pair (.named "row") (.named "cell"))])
      else none := by
  rw [layered, NameTable.get?_insert, NameTable.get?_insert]
  rfl

theorem Definitions.layered_productive : Definitions.layered.Productive := by
  apply productive_of_rank fun name => if name = "row" then 2 else if name = "cell" then 1 else 0
  rintro name other ⟨-, s, hFound, hMentions⟩
  rw [get?_layered] at hFound
  split at hFound
  · next hRow =>
      cases hFound
      cases hMentions with
      | member hMember hName =>
          rcases List.mem_pair.mp hMember with rfl | rfl <;> cases hName <;> rw [hRow] <;> decide
  · split at hFound
    · next hCell =>
        cases hFound
        cases hMentions with
        | member hMember hName =>
            rcases List.mem_pair.mp hMember with rfl | rfl <;> cases hName
            rw [hCell]
            decide
    · cases hFound

/-- With the schema of `row` in its place, a list of rows is read in the same way. -/
theorem Schema.read_unfolded_layered :
    "row" ∉ BuiltIn.names ∧
      Definitions.layered.get? "row" =
        some (.choice [.atom (.named "cell"), .atom (.named "nil")]) ∧
      Definitions.layered.Productive ∧
      ((Schema.list (.named "row")).read .layered (.ofList [.ofNat 3])).failed = false ∧
      ((Schema.list (.choice
          [.schema (.choice [.atom (.named "cell"), .atom (.named "nil")])])).read
          .layered (.ofList [.ofNat 3])).reading.unlabelled =
        ((Schema.list (.named "row")).read .layered (.ofList [.ofNat 3])).reading.unlabelled := by
  have hOther : "row" ∉ BuiltIn.names := by decide
  have hFound : Definitions.layered.get? "row" =
      some (.choice [.atom (.named "cell"), .atom (.named "nil")]) := Definitions.get?_layered "row"
  have hCell : Definitions.layered.get? "cell" = some (.choice
      [.atom (.named "int"), .schema (.pair (.named "row") (.named "cell"))]) :=
    Definitions.get?_layered "cell"
  have hNumber : (Alternative.atom (.named "cell")).Admits .layered (.ofNat 3) :=
    .defined (by decide) hCell
      (.choice List.mem_cons_self (.builtIn ⟨3, by decide, rfl⟩))
  have hRow : (Alternative.schema (.named "row")).Admits .layered (.ofNat 3) :=
    .choice List.mem_cons_self (.defined hOther hFound (.choice List.mem_cons_self hNumber))
  have hFits :
      ((Schema.list (.named "row")).read .layered (.ofList [.ofNat 3])).failed = false := by
    rw [Schema.read, ← Alternative.decode_schema, Alternative.decode_nil_fits_iff]
    refine .list fun t hMember => ?_
    rw [Tree.items_ofList, List.mem_singleton] at hMember
    rw [hMember]
    exact hRow
  exact ⟨hOther, hFound, Definitions.layered_productive, hFits,
    (Schema.read_unfolded hOther hFound (.list (.named "row")) (.ofList [.ofNat 3])).2
      Definitions.layered_productive hFits⟩

end TreeSchema
