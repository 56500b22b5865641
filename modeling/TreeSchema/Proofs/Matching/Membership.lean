import Mathlib.Algebra.Group.Nat.Defs
import TreeSchema.Proofs.Matching.Recursion
import TreeSchema.Proofs.Tree.Number

/-! The trees that a schema describes, as the least relation that is closed under
the meaning of each constructor. Definitions may be circular, so the relation is
not a recursion on schemas. The reader refuses a name that comes back at the same
node; a derivation never needs such a name, since the part of it above the second
use can be left out. Hence the reader accepts exactly the members. -/
namespace TreeSchema

namespace BuiltIn

/-- The trees of a built-in name. Other names have none here. -/
def Admits : String → Tree → Prop
  | "nil", t => t = .nil
  | "any", _ => True
  | "int", t => ∃ n, n < 2 ^ 64 ∧ t = .ofNat n
  | "false", t => t = .nil
  | "true", t => t = .node .nil .nil
  | "bool", t | "boolean", t => t = .nil ∨ t = .node .nil .nil
  | _, _ => False

theorem ofName?_eq_none_iff (name : String) : ofName? name = none ↔ name ∉ names := by
  unfold ofName? names
  split <;> simp_all

end BuiltIn

namespace Alternative

/-- Membership of a tree in the language of an alternative. A schema is the
alternative that consists of it. -/
inductive Admits (definitions : Definitions) : Alternative → Tree → Prop where
  | number (n : UInt64) : Admits definitions (.atom (.number n)) (.ofNat n.toNat)
  | builtIn {name : String} {t : Tree} (admits : BuiltIn.Admits name t) :
      Admits definitions (.atom (.named name)) t
  | defined {name : String} {s : Schema} {t : Tree} (other : name ∉ BuiltIn.names)
      (found : definitions.get? name = some s) (admits : Admits definitions (.schema s) t) :
      Admits definitions (.atom (.named name)) t
  | choice {alternatives : List Alternative} {a : Alternative} {t : Tree}
      (member : a ∈ alternatives) (admits : Admits definitions a t) :
      Admits definitions (.schema (.choice alternatives)) t
  | list {item : Schema} {t : Tree}
      (admits : ∀ t' ∈ t.items, Admits definitions (.schema item) t') :
      Admits definitions (.schema (.list item)) t
  | pair {left right : Schema} {l r : Tree} (admitsLeft : Admits definitions (.schema left) l)
      (admitsRight : Admits definitions (.schema right) r) :
      Admits definitions (.schema (.pair left right)) (.node l r)

/-- Membership by a derivation that enters none of the names in `expanding` at the
topmost node, and no name twice at any node. -/
inductive AdmitsAvoiding (definitions : Definitions) :
    List String → Alternative → Tree → Prop where
  | number {expanding : List String} (n : UInt64) :
      AdmitsAvoiding definitions expanding (.atom (.number n)) (.ofNat n.toNat)
  | builtIn {expanding : List String} {name : String} {t : Tree}
      (admits : BuiltIn.Admits name t) :
      AdmitsAvoiding definitions expanding (.atom (.named name)) t
  | defined {expanding : List String} {name : String} {s : Schema} {t : Tree}
      (other : name ∉ BuiltIn.names) (found : definitions.get? name = some s)
      (fresh : name ∉ expanding)
      (admits : AdmitsAvoiding definitions (name :: expanding) (.schema s) t) :
      AdmitsAvoiding definitions expanding (.atom (.named name)) t
  | choice {expanding : List String} {alternatives : List Alternative} {a : Alternative}
      {t : Tree} (member : a ∈ alternatives) (admits : AdmitsAvoiding definitions expanding a t) :
      AdmitsAvoiding definitions expanding (.schema (.choice alternatives)) t
  | list {expanding : List String} {item : Schema} {t : Tree}
      (admits : ∀ t' ∈ t.items, AdmitsAvoiding definitions [] (.schema item) t') :
      AdmitsAvoiding definitions expanding (.schema (.list item)) t
  | pair {expanding : List String} {left right : Schema} {l r : Tree}
      (admitsLeft : AdmitsAvoiding definitions [] (.schema left) l)
      (admitsRight : AdmitsAvoiding definitions [] (.schema right) r) :
      AdmitsAvoiding definitions expanding (.schema (.pair left right)) (.node l r)

end Alternative

/-- Membership of a tree in the language of a schema. -/
def Schema.Admits (definitions : Definitions) (s : Schema) (t : Tree) : Prop :=
  (Alternative.schema s).Admits definitions t

/-! Membership by the topmost constructor. -/

section

variable {definitions : Definitions} {t : Tree}

theorem Schema.admits_choice_iff {alternatives : List Alternative} :
    (Schema.choice alternatives).Admits definitions t ↔
      ∃ a ∈ alternatives, a.Admits definitions t := by
  constructor
  · intro h
    cases h with
    | choice member admits => exact ⟨_, member, admits⟩
  · rintro ⟨a, hMember, hAdmits⟩
    exact .choice hMember hAdmits

theorem Schema.admits_list_iff {item : Schema} :
    (Schema.list item).Admits definitions t ↔ ∀ t' ∈ t.items, item.Admits definitions t' := by
  constructor
  · intro h
    cases h with
    | list admits => exact admits
  · intro h
    exact .list h

theorem Schema.admits_pair_iff {left right : Schema} :
    (Schema.pair left right).Admits definitions t ↔
      ∃ l r, t = .node l r ∧ left.Admits definitions l ∧ right.Admits definitions r := by
  constructor
  · intro h
    cases h with
    | pair admitsLeft admitsRight => exact ⟨_, _, rfl, admitsLeft, admitsRight⟩
  · rintro ⟨l, r, rfl, hLeft, hRight⟩
    exact .pair hLeft hRight

end

/-! The leaves: what the decoders of numbers and booleans accept. -/

theorem matchNumber_fits_iff (n : UInt64) (t : Tree) :
    (matchNumber (some n) t).failed = false ↔ t = .ofNat n.toNat := by
  rw [← Tree.number?_eq_some_iff]
  unfold matchNumber
  cases t.number? with
  | none => simp [Outcome.refuse, Outcome.fails]
  | some m =>
      by_cases hSame : m = n
      · simp [hSame, Outcome.fits]
      · simp [hSame, Outcome.fails]

theorem matchNumber_none_fits_iff (t : Tree) :
    (matchNumber none t).failed = false ↔ ∃ n, n < 2 ^ 64 ∧ t = .ofNat n := by
  unfold matchNumber
  cases hNumber : t.number? with
  | none =>
      simp only [Outcome.refuse, Outcome.fails, Bool.true_eq_false, false_iff, not_exists, not_and]
      rintro n hBound rfl
      have hRead := (Tree.number?_eq_some_iff (.ofNat n) (.ofNatLT n hBound)).mpr (by simp)
      rw [hNumber] at hRead
      cases hRead
  | some n =>
      simp only [Outcome.fits, true_iff]
      exact ⟨n.toNat, n.toNat_lt_size, (Tree.number?_eq_some_iff t n).mp hNumber⟩

theorem matchBoolean_fits_iff (b : Bool) (t : Tree) :
    (matchBoolean (some b) t).failed = false ↔ t = .ofBool b := by
  rw [← Tree.bool?_eq_some_iff]
  unfold matchBoolean
  cases t.bool? with
  | none => simp [Outcome.refuse, Outcome.fails]
  | some b' =>
      by_cases hSame : b' = b
      · simp [hSame, Outcome.fits]
      · simp [hSame, Outcome.refuse, Outcome.fails]

theorem matchBoolean_none_fits_iff (t : Tree) :
    (matchBoolean none t).failed = false ↔ t = .nil ∨ t = .node .nil .nil := by
  have hSome := Tree.bool?_eq_some_iff t
  unfold matchBoolean
  cases hBool : t.bool? with
  | none =>
      have hFalse := hSome false
      have hTrue := hSome true
      simp only [hBool, Tree.ofBool, reduceCtorEq, false_iff] at hFalse hTrue
      simp [Outcome.refuse, Outcome.fails, hFalse, hTrue]
  | some b =>
      have hTree := (hSome b).mp hBool
      cases b <;> simp [Outcome.fits, hTree, Tree.ofBool]

theorem BuiltIn.decode_fits_iff {name : String} {b : BuiltIn} (t : Tree)
    (h : BuiltIn.ofName? name = some b) :
    (b.decode t).failed = Bool.false ↔ BuiltIn.Admits name t := by
  unfold BuiltIn.ofName? at h
  split at h <;> cases h
  · by_cases hNil : t = .nil
    · simp [BuiltIn.decode, BuiltIn.Admits, hNil, Outcome.fits]
    · simp [BuiltIn.decode, BuiltIn.Admits, hNil, Outcome.refuse, Outcome.fails]
  · simp [BuiltIn.decode, BuiltIn.Admits, Outcome.fits]
  · exact matchNumber_none_fits_iff t
  · exact matchBoolean_fits_iff Bool.true t
  · exact matchBoolean_fits_iff Bool.false t
  · exact matchBoolean_none_fits_iff t
  · exact matchBoolean_none_fits_iff t

theorem BuiltIn.not_admits_of_ofName? {name : String} (t : Tree)
    (h : BuiltIn.ofName? name = none) : ¬ BuiltIn.Admits name t := by
  unfold BuiltIn.ofName? at h
  unfold BuiltIn.Admits
  split at h <;> simp_all

namespace Alternative

variable {definitions : Definitions}

/-- The reader accepts what has a derivation without the names it is expanding. -/
theorem decode_fits_iff (expanding : List String) (a : Alternative) (t : Tree) :
    (a.decode definitions expanding t).failed = false ↔
      AdmitsAvoiding definitions expanding a t := by
  induction expanding, a, t using decode_induction definitions with
  | number expanding n t =>
      rw [decode_number, matchNumber_fits_iff]
      constructor
      · rintro rfl
        exact .number n
      · intro h
        cases h
        rfl
  | builtIn expanding name b t hName =>
      rw [decode_builtIn t hName, BuiltIn.decode_fits_iff t hName]
      constructor
      · exact .builtIn
      · intro h
        cases h with
        | builtIn admits => exact admits
        | defined other =>
            rw [(BuiltIn.ofName?_eq_none_iff name).mpr other] at hName
            cases hName
  | unknown expanding name t hOther hNone =>
      rw [decode_unknown t hOther hNone]
      constructor
      · intro h
        cases h
      · intro h
        cases h with
        | builtIn admits => exact absurd admits (BuiltIn.not_admits_of_ofName? t hOther)
        | defined _ found =>
            rw [hNone] at found
            cases found
  | circular expanding name s t hOther hFound hPending =>
      rw [decode_circular t hOther hFound hPending]
      constructor
      · intro h
        cases h
      · intro h
        cases h with
        | builtIn admits => exact absurd admits (BuiltIn.not_admits_of_ofName? t hOther)
        | defined _ _ fresh => exact absurd hPending fresh
  | defined expanding name s t hOther hFound hFresh ih =>
      rw [decode_defined t hOther hFound hFresh]
      rw [decode_schema] at ih
      constructor
      · intro h
        exact .defined ((BuiltIn.ofName?_eq_none_iff name).mp hOther) hFound hFresh (ih.mp h)
      · intro h
        cases h with
        | builtIn admits => exact absurd admits (BuiltIn.not_admits_of_ofName? t hOther)
        | defined _ found _ admits =>
            rw [hFound] at found
            cases found
            exact ih.mpr admits
  | choice expanding alternatives t ih =>
      rw [decode_schema, Schema.decode_choice, Outcome.choose_fits_iff]
      constructor
      · rintro ⟨a, hMember, hFits⟩
        exact .choice hMember ((ih a hMember).mp hFits)
      · intro h
        cases h with
        | choice member admits => exact ⟨_, member, (ih _ member).mpr admits⟩
  | list expanding item t ih =>
      rw [decode_schema, Schema.decode_list]
      simp only [Outcome.ofItems, List.any_map, List.any_eq_false, Function.comp_apply,
        Bool.not_eq_true]
      simp only [decode_schema] at ih
      constructor
      · intro h
        exact .list fun t' hMember => (ih t' hMember).mp (h t' hMember)
      · intro h
        cases h with
        | list admits => exact fun t' hMember => (ih t' hMember).mpr (admits t' hMember)
  | leaf expanding left right =>
      rw [decode_schema, Schema.decode_pair_nil]
      constructor
      · intro h
        cases h
      · intro h
        cases h
  | pair expanding left right l r ihLeft ihRight =>
      rw [decode_schema, Schema.decode_pair_node]
      rw [decode_schema] at ihLeft ihRight
      simp only [Outcome.ofPair, Bool.or_eq_false_iff, ihLeft, ihRight]
      constructor
      · rintro ⟨hLeft, hRight⟩
        exact .pair hLeft hRight
      · intro h
        cases h with
        | pair admitsLeft admitsRight => exact ⟨admitsLeft, admitsRight⟩

namespace AdmitsAvoiding

theorem admits {expanding : List String} {a : Alternative} {t : Tree}
    (h : AdmitsAvoiding definitions expanding a t) : Admits definitions a t := by
  induction h with
  | number n => exact .number n
  | builtIn admits => exact .builtIn admits
  | defined other found _ _ ih => exact .defined other found ih
  | choice member _ ih => exact .choice member ih
  | list _ ih => exact .list ih
  | pair _ _ ihLeft ihRight => exact .pair ihLeft ihRight

/-- A derivation may be used where fewer names are being expanded. -/
theorem mono {expanding fewer : List String} {a : Alternative} {t : Tree}
    (h : AdmitsAvoiding definitions expanding a t) (hSubset : fewer ⊆ expanding) :
    AdmitsAvoiding definitions fewer a t := by
  induction h generalizing fewer with
  | number n => exact .number n
  | builtIn admits => exact .builtIn admits
  | defined other found fresh _ ih =>
      exact .defined other found (fun hMember => fresh (hSubset hMember))
        (ih (List.cons_subset_cons _ hSubset))
  | choice member _ ih => exact .choice member (ih hSubset)
  | list _ ih => exact .list fun t' hMember => ih t' hMember (List.Subset.refl _)
  | pair _ _ ihLeft ihRight =>
      exact .pair (ihLeft (List.Subset.refl _)) (ihRight (List.Subset.refl _))

/-- Loop elimination. Either `name` is not entered at this node, or the derivation
contains one of its schema for the same tree, below which it is not entered again. -/
theorem avoid_or {expanding : List String} {a : Alternative} {t : Tree} {name : String}
    {s : Schema} (h : AdmitsAvoiding definitions expanding a t)
    (hFound : definitions.get? name = some s) :
    AdmitsAvoiding definitions (name :: expanding) a t ∨
      AdmitsAvoiding definitions (name :: expanding) (.schema s) t := by
  induction h with
  | number n => exact .inl (.number n)
  | builtIn admits => exact .inl (.builtIn admits)
  | @defined expanding other s' t notBuiltIn found fresh admits ih =>
      by_cases hSame : other = name
      · subst hSame
        rw [hFound] at found
        cases found
        exact .inr admits
      · rcases ih with hAvoids | hLoop
        · have hSwap := (List.Perm.swap name other expanding).subset
          exact .inl (.defined notBuiltIn found (by simp [hSame, fresh]) (hAvoids.mono hSwap))
        · exact .inr (hLoop.mono (List.cons_subset_cons _ (List.subset_cons_self _ _)))
  | choice member _ ih =>
      rcases ih with hAvoids | hLoop
      · exact .inl (.choice member hAvoids)
      · exact .inr hLoop
  | list admits => exact .inl (.list admits)
  | pair admitsLeft admitsRight => exact .inl (.pair admitsLeft admitsRight)

end AdmitsAvoiding

/-- What has a derivation has one that enters no name twice at a node. -/
theorem Admits.avoiding {a : Alternative} {t : Tree} (h : Admits definitions a t) :
    AdmitsAvoiding definitions [] a t := by
  induction h with
  | number n => exact .number n
  | builtIn admits => exact .builtIn admits
  | defined other found _ ih =>
      have hOnce := (ih.avoid_or found).elim id id
      exact .defined other found (List.not_mem_nil) hOnce
  | choice member _ ih => exact .choice member ih
  | list _ ih => exact .list ih
  | pair _ _ ihLeft ihRight => exact .pair ihLeft ihRight

end Alternative

/-- What has a derivation still has one by other definitions, if by those each name admits
all that its schema does. -/
theorem Alternative.Admits.of_definitions {definitions others : Definitions}
    (hNames : ∀ name s, definitions.get? name = some s →
      ∃ s', others.get? name = some s' ∧ ∀ t, s.Admits others t → s'.Admits others t)
    {a : Alternative} {t : Tree} (h : a.Admits definitions t) : a.Admits others t := by
  induction h with
  | number n => exact .number n
  | builtIn admits => exact .builtIn admits
  | defined other found _ ih =>
      obtain ⟨s', hFound, hAdmits⟩ := hNames _ _ found
      exact .defined other hFound (hAdmits _ ih)
  | choice member _ ih => exact .choice member ih
  | list _ ih => exact .list ih
  | pair _ _ ihLeft ihRight => exact .pair ihLeft ihRight

/-- Where no name is being expanded, the refusal of circular names costs no member. -/
theorem Alternative.decode_nil_fits_iff {definitions : Definitions} (a : Alternative) (t : Tree) :
    (a.decode definitions [] t).failed = false ↔ a.Admits definitions t := by
  rw [decode_fits_iff]
  exact ⟨fun h => h.admits, fun h => h.avoiding⟩

/-- Whether a tree is found to fit depends on nothing but its membership. -/
theorem Schema.failed_read_congr {definitions others : Definitions} {s s' : Schema} {t : Tree}
    (h : s.Admits definitions t ↔ s'.Admits others t) :
    (s.read definitions t).failed = (s'.read others t).failed := by
  have hFits (definitions : Definitions) (s : Schema) :
      (s.read definitions t).failed = false ↔ s.Admits definitions t := by
    rw [read, ← Alternative.decode_schema, Alternative.decode_nil_fits_iff]
    rfl
  by_cases hAdmits : s.Admits definitions t
  · rw [(hFits definitions s).mpr hAdmits, (hFits others s').mpr (h.mp hAdmits)]
  · rw [eq_true_of_ne_false (mt (hFits definitions s).mp hAdmits),
      eq_true_of_ne_false (mt (hFits others s').mp (mt h.mpr hAdmits))]

/-- The reader finds no fault with a tree exactly if the schema describes it. In
particular the refusal of a name that comes back at a node costs no member. -/
theorem Schema.read_fits_iff_admits (definitions : Definitions) (s : Schema) (t : Tree) :
    (s.read definitions t).failed = false ↔ s.Admits definitions t := by
  unfold Schema.read Schema.Admits
  rw [← Alternative.decode_schema, Alternative.decode_fits_iff]
  exact ⟨fun h => h.admits, fun h => h.avoiding⟩

end TreeSchema
