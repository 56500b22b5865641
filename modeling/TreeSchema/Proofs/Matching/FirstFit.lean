import TreeSchema.Proofs.Matching.Recursion

/-! Outcomes as far as they fit. Of the alternatives that fail a choice keeps at most what
they failed of; so what it gives for a tree that fits is the first outcome that fits, and
depends on nothing else. Choices in choices can be taken apart. -/
namespace TreeSchema

/-- The first answer depends on the answers alone. -/
theorem findSome?_congr {α β : Type} {f g : α → Option β} {as : List α}
    (h : ∀ a ∈ as, f a = g a) : as.findSome? f = as.findSome? g := by
  induction as with
  | nil => rfl
  | cons a as ih =>
      rw [List.forall_mem_cons] at h
      rw [List.findSome?_cons, List.findSome?_cons, h.1, ih h.2]

theorem findSome?_flatMap {α β γ : Type} (f : β → Option γ) (parts : α → List β) (as : List α) :
    (as.flatMap parts).findSome? f = as.findSome? fun a => (parts a).findSome? f := by
  induction as with
  | nil => rfl
  | cons a as ih =>
      rw [List.flatMap_cons, List.findSome?_append, ih, List.findSome?_cons]
      cases (parts a).findSome? f <;> rfl

namespace Outcome

/-- An outcome, if it is one of a tree that fits. -/
def fit? (o : Outcome) : Option Outcome :=
  if o.failed then none else some o

variable {o o' : Outcome}

theorem fit?_of_failed (h : o.failed = true) : o.fit? = none :=
  if_pos h

theorem fit?_of_fits (h : o.failed = false) : o.fit? = some o :=
  if_neg (Bool.eq_false_iff.mp h)

/-- Outcomes that agree as far as they fit are the same, unless both fail. -/
theorem fit?_eq_iff :
    o.fit? = o'.fit? ↔ o.failed = o'.failed ∧ (o.failed = false → o = o') := by
  cases h : o.failed <;> cases h' : o'.failed
  case false.false => simp [fit?_of_fits h, fit?_of_fits h']
  case false.true => simp [fit?_of_fits h, fit?_of_failed h']
  case true.false => simp [fit?_of_failed h, fit?_of_fits h']
  case true.true => simp [fit?_of_failed h, fit?_of_failed h']

theorem fit?_viaName_congr (h : o.fit? = o'.fit?) (name : String) :
    (o.viaName name).fit? = (o'.viaName name).fit? := by
  obtain ⟨hFailed, hSame⟩ := fit?_eq_iff.mp h
  exact fit?_eq_iff.mpr ⟨hFailed, fun hFits => congrArg (viaName · name) (hSame hFits)⟩

theorem fit?_ofPair_congr {left left' right right' : Outcome} (hLeft : left.fit? = left'.fit?)
    (hRight : right.fit? = right'.fit?) :
    (ofPair left right).fit? = (ofPair left' right').fit? := by
  obtain ⟨hFailedLeft, hSameLeft⟩ := fit?_eq_iff.mp hLeft
  obtain ⟨hFailedRight, hSameRight⟩ := fit?_eq_iff.mp hRight
  refine fit?_eq_iff.mpr ⟨?_, fun hFits => ?_⟩
  · show (left.failed || right.failed) = (left'.failed || right'.failed)
    rw [hFailedLeft, hFailedRight]
  · obtain ⟨hFitsLeft, hFitsRight⟩ := Bool.or_eq_false_iff.mp hFits
    rw [hSameLeft hFitsLeft, hSameRight hFitsRight]

theorem fit?_ofItems_congr {α : Type} {as : List α} {f g : α → Outcome}
    (h : ∀ a ∈ as, (f a).fit? = (g a).fit?) :
    (ofItems (as.map f)).fit? = (ofItems (as.map g)).fit? := by
  have hItems (a : α) (hMember : a ∈ as) := fit?_eq_iff.mp (h a hMember)
  refine fit?_eq_iff.mpr ⟨?_, fun hFits => ?_⟩
  · show (as.map f).any failed = (as.map g).any failed
    rw [List.any_map, List.any_map, Bool.eq_iff_iff, List.any_eq_true, List.any_eq_true]
    exact exists_congr fun a => and_congr_right fun hMember => by
      rw [Function.comp_apply, Function.comp_apply, (hItems a hMember).1]
  · simp only [ofItems, List.any_map, List.any_eq_false, Function.comp_apply,
      Bool.not_eq_true] at hFits
    exact congrArg ofItems
      (List.map_congr_left fun a hMember => (hItems a hMember).2 (hFits a hMember))

/-- As far as it fits, a choice is the first of its alternatives that fits. -/
theorem fit?_choose (t : Tree) (alternatives : List Alternative)
    (outcome : Alternative → Outcome) :
    (choose t alternatives outcome).fit? = alternatives.findSome? fun a => (outcome a).fit? := by
  have hFind : (alternatives.map outcome).find? (!·.failed) =
      alternatives.findSome? fun a => (outcome a).fit? := by
    induction alternatives with
    | nil => rfl
    | cons first others ih =>
        rw [List.map_cons, List.find?_cons, List.findSome?_cons, ih]
        cases hFailed : (outcome first).failed with
        | false => rw [fit?_of_fits hFailed]; rfl
        | true => rw [fit?_of_failed hFailed]; rfl
  unfold choose
  split
  · next only =>
      rw [List.findSome?_cons, List.findSome?_nil]
      cases (outcome only).fit? <;> rfl
  · rw [← hFind]
    cases hFound : (alternatives.map outcome).find? (!·.failed) with
    | none => exact fit?_of_failed rfl
    | some found =>
        have hFits := List.find?_some hFound
        rw [Bool.not_eq_true'] at hFits
        exact fit?_of_fits hFits

end Outcome

section

variable (definitions : Definitions) (expanding : List String)

theorem Schema.fit?_decode_choice (alternatives : List Alternative) (t : Tree) :
    ((Schema.choice alternatives).decode definitions expanding t).fit? =
      alternatives.findSome? fun a => (a.decode definitions expanding t).fit? := by
  rw [Schema.decode_choice, Outcome.fit?_choose]

/-- An alternative fits as the first of the members that it adds to a choice. -/
theorem Alternative.fit?_decode_members (a : Alternative) (t : Tree) :
    a.members.findSome? (fun member => (member.decode definitions expanding t).fit?) =
      (a.decode definitions expanding t).fit? := by
  have hOnly (b : Alternative) :
      [b].findSome? (fun member => (member.decode definitions expanding t).fit?) =
        (b.decode definitions expanding t).fit? := by
    rw [List.findSome?_cons, List.findSome?_nil]
    cases (b.decode definitions expanding t).fit? <;> rfl
  match a with
  | .schema (.choice inner) =>
      rw [decode_schema, Schema.fit?_decode_choice]
      rfl
  | .schema (.list _) | .schema (.pair _ _) | .atom _ => exact hOnly _

/-- It makes no difference to a tree that fits whether choices among the alternatives are
spliced and a single schema is left without a choice around it. -/
theorem Schema.fit?_decode_oneOf (alternatives : List Alternative) (t : Tree) :
    ((Schema.oneOf alternatives).decode definitions expanding t).fit? =
      ((Schema.choice alternatives).decode definitions expanding t).fit? := by
  have hMembers : ((Schema.choice (alternatives.flatMap Alternative.members)).decode definitions
        expanding t).fit? =
      ((Schema.choice alternatives).decode definitions expanding t).fit? := by
    rw [fit?_decode_choice, fit?_decode_choice, findSome?_flatMap]
    exact findSome?_congr fun a _ => a.fit?_decode_members definitions expanding t
  rw [← hMembers, oneOf]
  split
  · next only hOnly =>
      rw [hOnly, decode_choice]
      exact congrArg Outcome.fit? (Alternative.decode_schema ..).symm
  · rfl

end

end TreeSchema
