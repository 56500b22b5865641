import TreeSchema.Proofs.Schema.Sentences

/-! Everything that the reader of descriptions makes is in normal form, down to the
smallest part. A choice takes in the members of the choices among its alternatives one
level deep only, which is enough because those are themselves in normal form. -/
namespace TreeSchema

/-- The schemas that a schema is built from, itself among them. -/
inductive Schema.Part (whole : Schema) : Schema → Prop where
  | whole : Part whole whole
  | member {alternatives : List Alternative} {s : Schema}
      (within : Part whole (.choice alternatives)) (member : .schema s ∈ alternatives) :
      Part whole s
  | item {item : Schema} (within : Part whole (.list item)) : Part whole item
  | left {left right : Schema} (within : Part whole (.pair left right)) : Part whole left
  | right {left right : Schema} (within : Part whole (.pair left right)) : Part whole right

namespace Schema

/-- What holds of the choices in a schema holds of those in its parts. -/
theorem Part.everywhere {p : List Alternative → Prop} {whole part : Schema}
    (hPart : whole.Part part) (h : whole.Everywhere p) : part.Everywhere p := by
  induction hPart with
  | whole => exact h
  | member _ hMember ih => exact Alternative.allEverywhere_iff.mp ih.2 _ hMember
  | item _ ih => exact ih
  | left _ ih => exact ih.1
  | right _ ih => exact ih.2

/-- A schema in normal form is what it becomes as the only member of a choice. -/
theorem Normal.oneOf_toAlternative {s : Schema} (h : s.Normal) :
    Schema.oneOf [s.toAlternative] = s :=
  Schema.oneOf_map_toAlternative (List.forall_mem_singleton.mpr h) (List.cons_ne_nil _ _)

end Schema

namespace Description

theorem normal_of_read {ts : List Token} {s : Schema} (h : read ts = .ok s) : s.Normal := by
  cases ts with
  | nil =>
      cases h
      exact Schema.normal_atom _
  | cons t ts => exact (derives_of_read h).normal.2 s List.mem_cons_self

/-- Whatever tokens are read, every choice in what they mean has alternatives, none of them
a choice, and a single one is an atom; and every part of it is the same again after it has
been made a member of a choice of its own. -/
theorem parts_normal_of_read {ts : List Token} {s part : Schema} (h : read ts = .ok s)
    (hPart : s.Part part) :
    (∀ alternatives, part = .choice alternatives → NormalChoice alternatives) ∧
      Schema.oneOf [part.toAlternative] = part := by
  have hNormal : part.Normal := hPart.everywhere (normal_of_read h)
  refine ⟨?_, hNormal.oneOf_toAlternative⟩
  rintro alternatives rfl
  exact hNormal.1

/-- The lexemes of `int|(nil|(0|any)[])`. -/
def groupedLexemes : List Lexeme :=
  [.identifier "int", .symbol .bar, .symbol .groupOpen, .identifier "nil", .symbol .bar,
    .symbol .groupOpen, .integer 0, .symbol .bar, .identifier "any", .symbol .groupClose,
    .symbol .listOpen, .symbol .listClose, .symbol .groupClose]

/-- The choice in the outer parentheses becomes part of the choice around it; the inner one
stays, for there is a list between them. -/
theorem parts_normal_of_read_grouped :
    let inner := [.atom (.number 0), .atom (.named "any")]
    let whole := Schema.choice
      [.atom (.named "int"), .atom (.named "nil"), .schema (.list (.choice inner))]
    read (placed 0 groupedLexemes) = .ok whole ∧ whole.Part (.choice inner) ∧
      NormalChoice inner ∧ Schema.oneOf [(Schema.choice inner).toAlternative] = .choice inner := by
  intro inner whole
  have hRead : read (placed 0 groupedLexemes) = .ok whole := rfl
  have hList : whole.Part (.list (.choice inner)) := .member .whole (by simp)
  obtain ⟨hChoice, hAgain⟩ := parts_normal_of_read hRead hList.item
  exact ⟨hRead, hList.item, hChoice inner rfl, hAgain⟩

end Description

end TreeSchema
