import Mathlib.Logic.Relation
import TreeSchema.Proofs.Matching.Membership
import TreeSchema.Proofs.NameTable

/-! Rearranged choices. The first alternative that fits decides how a tree is read, but
not whether it fits: a choice has the members that its alternatives have, in whatever
order they stand, however often, and however they are grouped. Each such edit keeps the
members of a schema by any definitions, so edits in the definitions themselves, circular
or not, change no members either. -/
namespace TreeSchema

/-- One change to how the alternatives of a choice are arranged, anywhere in a schema. -/
inductive Schema.Edit : Schema → Schema → Prop where
  | permute {alternatives others : List Alternative} (same : alternatives.Perm others) :
      Edit (.choice alternatives) (.choice others)
  | again {alternatives : List Alternative} {a : Alternative} (member : a ∈ alternatives) :
      Edit (.choice alternatives) (.choice (a :: alternatives))
  | splice (before inner after : List Alternative) :
      Edit (.choice (before ++ .schema (.choice inner) :: after))
        (.choice (before ++ inner ++ after))
  | unwrap (s : Schema) : Edit (.choice [.schema s]) s
  | member {s s' : Schema} (before after : List Alternative) (edit : Edit s s') :
      Edit (.choice (before ++ .schema s :: after)) (.choice (before ++ .schema s' :: after))
  | item {item item' : Schema} (edit : Edit item item') : Edit (.list item) (.list item')
  | left {left left' : Schema} (right : Schema) (edit : Edit left left') :
      Edit (.pair left right) (.pair left' right)
  | right {right right' : Schema} (left : Schema) (edit : Edit right right') :
      Edit (.pair left right) (.pair left right')

/-- What any number of edits leads to, each made or undone. -/
def Schema.Rearranged : Schema → Schema → Prop :=
  Relation.EqvGen Schema.Edit

/-- Definitions of the same names, each of them rearranged. -/
def Definitions.Rearranged (definitions others : Definitions) : Prop :=
  ∀ name, Option.Rel Schema.Rearranged (definitions.get? name) (others.get? name)

namespace Schema

variable {definitions : Definitions} {s s' : Schema}

/-- A single edit keeps the members. At the place of the edit it only matters which
alternatives there are; above that place, only which members the part below has. -/
theorem Edit.admits_iff (h : s.Edit s') (t : Tree) :
    s.Admits definitions t ↔ s'.Admits definitions t := by
  induction h generalizing t with
  | permute same => simp only [admits_choice_iff, same.mem_iff]
  | @again alternatives a member =>
      rw [admits_choice_iff, admits_choice_iff]
      simp only [List.mem_cons, or_and_right, exists_or, exists_eq_left]
      exact ⟨.inr, fun h => h.elim (fun hFirst => ⟨a, member, hFirst⟩) id⟩
  | splice before inner after =>
      have hInner : (Alternative.schema (.choice inner)).Admits definitions t ↔
          ∃ a ∈ inner, a.Admits definitions t := admits_choice_iff
      simp only [admits_choice_iff, List.mem_append, List.mem_cons, or_and_right, exists_or,
        exists_eq_left, hInner, or_assoc]
  | unwrap s =>
      rw [admits_choice_iff]
      simp only [List.mem_singleton, exists_eq_left]
      rfl
  | @member s s' before after _ ih =>
      have hMember : (Alternative.schema s).Admits definitions t ↔
          (Alternative.schema s').Admits definitions t := ih t
      simp only [admits_choice_iff, List.mem_append, List.mem_cons, or_and_right, exists_or,
        exists_eq_left, hMember]
  | item _ ih => simp only [admits_list_iff, ih]
  | left right _ ih => simp only [admits_pair_iff, ih]
  | right left _ ih => simp only [admits_pair_iff, ih]

namespace Rearranged

theorem refl (s : Schema) : s.Rearranged s :=
  Relation.EqvGen.refl s

theorem symm (h : s.Rearranged s') : s'.Rearranged s :=
  Relation.EqvGen.symm _ _ h

/-- Any number of edits keep the members, as each of them does. -/
theorem admits_iff (h : s.Rearranged s') (t : Tree) :
    s.Admits definitions t ↔ s'.Admits definitions t := by
  induction h with
  | rel s s' edit => exact edit.admits_iff t
  | refl s => exact Iff.rfl
  | symm s s' _ ih => exact ih.symm
  | trans s s' s'' _ _ ihFirst ihNext => exact ihFirst.trans ihNext

end Rearranged

end Schema

namespace Definitions.Rearranged

variable {definitions others : Definitions}

theorem refl (definitions : Definitions) : definitions.Rearranged definitions := by
  intro name
  cases definitions.get? name with
  | none => exact .none
  | some s => exact .some (.refl s)

theorem symm (h : definitions.Rearranged others) : others.Rearranged definitions := by
  intro name
  have hName := h name
  revert hName
  generalize definitions.get? name = found, others.get? name = found'
  rintro (hSchema | _)
  · exact .some hSchema.symm
  · exact .none

theorem insert (h : definitions.Rearranged others) {s s' : Schema} (hSchema : s.Rearranged s')
    (name : String) :
    Definitions.Rearranged (definitions.insert name s) (others.insert name s') := by
  intro other
  rw [NameTable.get?_insert, NameTable.get?_insert]
  split
  · exact .some hSchema
  · exact h other

/-- What is a member by some definitions is one when they have been rearranged. The schema
itself stays as it is here; only the names in it lead to others. -/
theorem admits (h : definitions.Rearranged others) {s : Schema} {t : Tree}
    (hAdmits : s.Admits definitions t) : s.Admits others t := by
  apply Alternative.Admits.of_definitions _ hAdmits
  intro name s hFound
  have hName := h name
  rw [hFound] at hName
  cases hNew : others.get? name with
  | none =>
      rw [hNew] at hName
      cases hName
  | some s' =>
      rw [hNew] at hName
      cases hName with
      | some hSchema => exact ⟨s', rfl, fun t => (hSchema.admits_iff t).mp⟩

end Definitions.Rearranged

/-- However the alternatives of choices are rearranged, in a schema and in the definitions
that its names stand for, the same trees fit. -/
theorem Schema.failed_read_rearranged {definitions others : Definitions} {s s' : Schema}
    (hDefinitions : definitions.Rearranged others) (h : s.Rearranged s') (t : Tree) :
    (s'.read others t).failed = (s.read definitions t).failed := by
  apply Schema.failed_read_congr
  rw [← h.admits_iff t]
  exact ⟨hDefinitions.symm.admits, hDefinitions.admits⟩

/-- `even` as `even|nil|<nil.odd>`, and `odd` as `odd|<nil.even>`. -/
def Definitions.parity : Definitions :=
  NameTable.insert
    (NameTable.insert .empty "even"
      (.choice [.atom (.named "even"), .atom (.named "nil"),
        .schema (.pair (.named "nil") (.named "odd"))]))
    "odd" (.choice [.atom (.named "odd"), .schema (.pair (.named "nil") (.named "even"))])

/-- `even` as `(<nil.odd>|nil)|even`, and `odd` as `odd|odd|<nil.even>`. -/
def Definitions.parityRearranged : Definitions :=
  NameTable.insert
    (NameTable.insert .empty "even"
      (.choice [.schema (.choice
          [.schema (.pair (.named "nil") (.named "odd")), .atom (.named "nil")]),
        .atom (.named "even")]))
    "odd" (.choice [.atom (.named "odd"), .atom (.named "odd"),
      .schema (.pair (.named "nil") (.named "even"))])

/-- Each name comes back to itself, before the other alternatives in the one table and
after them in the other. -/
theorem Schema.failed_read_rearranged_parity :
    Definitions.parity.Rearranged .parityRearranged ∧
      (Schema.list (.named "even")).Rearranged (.list (.choice [.schema (.named "even")])) ∧
      ((Schema.list (.choice [.schema (.named "even")])).read .parityRearranged
          (.ofList [.ofNat 2, .ofNat 3])).failed =
        ((Schema.list (.named "even")).read .parity (.ofList [.ofNat 2, .ofNat 3])).failed := by
  have hEven : (Schema.choice [.atom (.named "even"), .atom (.named "nil"),
        .schema (.pair (.named "nil") (.named "odd"))]).Rearranged
      (.choice [.schema (.choice
          [.schema (.pair (.named "nil") (.named "odd")), .atom (.named "nil")]),
        .atom (.named "even")]) :=
    .trans _ _ _ (.rel _ _ (.permute (by decide))) (.symm _ _ (.rel _ _ (.splice [] _ _)))
  have hOdd : (Schema.choice [.atom (.named "odd"),
        .schema (.pair (.named "nil") (.named "even"))]).Rearranged
      (.choice [.atom (.named "odd"), .atom (.named "odd"),
        .schema (.pair (.named "nil") (.named "even"))]) :=
    .rel _ _ (.again List.mem_cons_self)
  have hDefinitions : Definitions.parity.Rearranged .parityRearranged :=
    ((Definitions.Rearranged.refl .empty).insert hEven "even").insert hOdd "odd"
  have hSchema : (Schema.list (.named "even")).Rearranged
      (.list (.choice [.schema (.named "even")])) :=
    .symm (.rel _ _ (.item (.unwrap _)))
  exact ⟨hDefinitions, hSchema, Schema.failed_read_rearranged hDefinitions hSchema _⟩

end TreeSchema
