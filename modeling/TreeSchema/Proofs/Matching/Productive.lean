import TreeSchema.Proofs.Matching.Membership

/-! Definitions by which no name leads back to itself before something of a tree is taken
apart. Names that are being expanded then lead on to all names that may still be entered at
the same node, so none of these is being expanded itself. No name is refused as circular,
and how a tree is read does not depend on the names that were entered before. -/
namespace TreeSchema

/-- The names that an alternative has outside of pairs and lists. -/
inductive Alternative.Mentions : Alternative → String → Prop where
  | name (name : String) : Mentions (.atom (.named name)) name
  | member {alternatives : List Alternative} {a : Alternative} {name : String}
      (member : a ∈ alternatives) (mentions : Mentions a name) :
      Mentions (.schema (.choice alternatives)) name

namespace Definitions

/-- Whether one name stands for a schema that mentions another. Built-in names stand for
no schema, whatever is defined under them. -/
def Expands (definitions : Definitions) (name other : String) : Prop :=
  name ∉ BuiltIn.names ∧
    ∃ s, definitions.get? name = some s ∧ (Alternative.schema s).Mentions other

/-- No name leads back to itself outside of pairs and lists. Inside of them it may. -/
def Productive (definitions : Definitions) : Prop :=
  ∀ name, ¬ Relation.TransGen definitions.Expands name name

/-- Names that can be ranked such that each stands for lower ones do not lead back. -/
theorem productive_of_rank {definitions : Definitions} (rank : String → Nat)
    (h : ∀ name other, definitions.Expands name other → rank other < rank name) :
    definitions.Productive := by
  have hLess (name other : String) (hLeads : Relation.TransGen definitions.Expands name other) :
      rank other < rank name := by
    induction hLeads with
    | single hExpands => exact h _ _ hExpands
    | tail _ hExpands ih => exact Nat.lt_trans (h _ _ hExpands) ih
  intro name hLeads
  exact Nat.lt_irrefl _ (hLess name name hLeads)

end Definitions

namespace Alternative

variable {definitions : Definitions} {expanding : List String}

/-- All names that are being expanded lead to the names that an alternative mentions. -/
def Behind (definitions : Definitions) (expanding : List String) (a : Alternative) : Prop :=
  ∀ name ∈ expanding, ∀ other, a.Mentions other → Relation.TransGen definitions.Expands name other

theorem behind_nil (a : Alternative) : a.Behind definitions [] := by
  intro name hMember
  cases hMember

namespace Behind

theorem member {alternatives : List Alternative} {a : Alternative}
    (h : (Alternative.schema (.choice alternatives)).Behind definitions expanding)
    (hMember : a ∈ alternatives) : a.Behind definitions expanding :=
  fun name hName _ hMentions => h name hName _ (.member hMember hMentions)

variable {name : String} (h : (Alternative.atom (.named name)).Behind definitions expanding)

include h

theorem fresh (hProductive : definitions.Productive) : name ∉ expanding :=
  fun hPending => hProductive name (h name hPending name (.name name))

variable {s : Schema} (hOther : name ∉ BuiltIn.names) (hFound : definitions.get? name = some s)

include hOther hFound

theorem definition : (Alternative.schema s).Behind definitions expanding :=
  fun first hFirst _ hMentions =>
    (h first hFirst name (.name name)).tail ⟨hOther, s, hFound, hMentions⟩

/-- The schema of a name is behind whatever the name is behind, and behind the name. -/
theorem enter : (Alternative.schema s).Behind definitions (name :: expanding) := by
  intro first hFirst other hMentions
  rcases List.mem_cons.mp hFirst with rfl | hFirst
  · exact .single ⟨hOther, s, hFound, hMentions⟩
  · exact h.definition hOther hFound first hFirst other hMentions

end Behind

/-- What is being expanded makes no difference, as long as it leads to what is read. -/
theorem decode_eq_of_behind (hProductive : definitions.Productive) (expanding : List String)
    (a : Alternative) (t : Tree) (h : a.Behind definitions expanding) (others : List String)
    (hOthers : a.Behind definitions others) :
    a.decode definitions expanding t = a.decode definitions others t := by
  induction expanding, a, t using decode_induction definitions generalizing others with
  | number expanding n t => rw [decode_number, decode_number]
  | builtIn expanding name b t hName => rw [decode_builtIn t hName, decode_builtIn t hName]
  | unknown expanding name t hOther hNone =>
      rw [decode_unknown t hOther hNone, decode_unknown t hOther hNone]
  | circular expanding name s t hOther hFound hPending =>
      exact absurd hPending (h.fresh hProductive)
  | defined expanding name s t hOther hFound hFresh ih =>
      have hName := (BuiltIn.ofName?_eq_none_iff name).mp hOther
      have hSame := ih (h.enter hName hFound) (name :: others) (hOthers.enter hName hFound)
      rw [decode_schema, decode_schema] at hSame
      rw [decode_defined t hOther hFound hFresh,
        decode_defined t hOther hFound (hOthers.fresh hProductive), hSame]
  | choice expanding alternatives t ih =>
      have hMembers (a : Alternative) (hMember : a ∈ alternatives) :=
        ih a hMember (h.member hMember) others (hOthers.member hMember)
      rw [decode_schema, decode_schema, Schema.decode_choice, Schema.decode_choice]
      exact Outcome.choose_congr hMembers
  | list expanding item t ih =>
      rw [decode_schema, decode_schema, Schema.decode_list, Schema.decode_list]
  | leaf expanding left right =>
      rw [decode_schema, decode_schema, Schema.decode_pair_nil, Schema.decode_pair_nil]
  | pair expanding left right l r =>
      rw [decode_schema, decode_schema, Schema.decode_pair_node, Schema.decode_pair_node]

end Alternative

end TreeSchema
