import Mathlib.Data.List.Chain
import Mathlib.Data.List.Perm.Subperm
import TreeSchema.Proofs.Matching.CallDepth
import TreeSchema.Proofs.Matching.Echo
import TreeSchema.Proofs.Matching.Productive

/-! The names that are noted on the nodes of a reading. A name is noted on the way out of
its schema, outside those that were noted further in. What is noted on a node is thus the
way by which the reader came to what it read there: each name leads on to the next, and no
name comes twice since none is entered twice at a node. -/
namespace TreeSchema

namespace Definitions

/-- Names that can be entered one after the other at a node. -/
structure Expansion (definitions : Definitions) (names : List String) : Prop where
  distinct : names.Nodup
  defined : ∀ name ∈ names, name ∈ definitions.names
  notBuiltIn : ∀ name ∈ names, name ∉ BuiltIn.names
  linked : names.IsChain definitions.Expands

variable {definitions : Definitions} {names : List String}

theorem expansion_nil : definitions.Expansion [] :=
  ⟨List.nodup_nil, List.forall_mem_nil _, List.forall_mem_nil _, .nil⟩

namespace Expansion

/-- One more name outside of those that its schema leads to. -/
theorem cons (h : definitions.Expansion names) {name : String} {s : Schema}
    (hOther : name ∉ BuiltIn.names) (hFound : definitions.get? name = some s)
    (hFresh : name ∉ names)
    (hLeads : ∀ other ∈ names.head?, (Alternative.schema s).Mentions other) :
    definitions.Expansion (name :: names) where
  distinct := List.nodup_cons.mpr ⟨hFresh, h.distinct⟩
  defined := List.forall_mem_cons.mpr ⟨NameTable.mem_names_of_get? hFound, h.defined⟩
  notBuiltIn := List.forall_mem_cons.mpr ⟨hOther, h.notBuiltIn⟩
  linked := List.isChain_cons.mpr
    ⟨fun other hHead => ⟨hOther, s, hFound, hLeads other hHead⟩, h.linked⟩

theorem length_le (h : definitions.Expansion names) :
    names.length ≤ definitions.names.length :=
  (List.subperm_of_subset h.distinct h.defined).length_le

end Expansion

end Definitions

namespace Reading

/-- Whether `p` holds of what is noted on each node, at any depth. -/
def Noted (p : Remarks → Prop) (r : Reading) : Prop :=
  ∀ path node, r.descend? path = some node → p node.remarks

variable {p : Remarks → Prop} {r : Reading} {t : Tree}

theorem Noted.imp {q : Remarks → Prop} (h : r.Noted p) (hImp : ∀ remarks, p remarks → q remarks) :
    r.Noted q :=
  fun path node hNode => hImp _ (h path node hNode)

theorem Noted.top (h : r.Noted p) : p r.remarks :=
  h [] r rfl

theorem noted_of_children (hTop : p r.remarks)
    (h : ∀ step child, r.child? step = some child → child.Noted p) : r.Noted p := by
  intro path node hNode
  cases path with
  | nil =>
      cases hNode
      exact hTop
  | cons step path =>
      obtain ⟨child, hChild, hBelow⟩ := descend?_cons_eq_some_iff.mp hNode
      exact h step child hChild path node hBelow

/-- Remarks change what is noted only on the topmost node. -/
theorem Noted.remark (h : r.Noted p) (f : Remarks → Remarks) (hTop : p (f r.remarks)) :
    (r.remark f).Noted p := by
  apply noted_of_children
  · rw [remarks_remark]
    exact hTop
  · intro step child hChild path node hNode
    rw [child?_remark] at hChild
    exact h (step :: path) node (descend?_cons_eq_some_iff.mpr ⟨child, hChild, hNode⟩)

theorem noted_ofTree (h : p {}) : (ofTree t).Noted p := by
  intro path node hNode
  rw [remarks_of_descend?_ofTree hNode]
  exact h

theorem noted_ofValue (v : Value) (h : p {}) : (ofValue v).Noted p := by
  refine noted_of_children h fun step child hChild => ?_
  cases step <;> cases hChild

theorem Noted.ofPair {left right : Reading} (h : p {}) (hLeft : left.Noted p)
    (hRight : right.Noted p) : (ofPair left right).Noted p := by
  refine noted_of_children h fun step child hChild => ?_
  cases step with
  | left =>
      cases hChild
      exact hLeft
  | right =>
      cases hChild
      exact hRight
  | item index => cases hChild

theorem noted_ofItems {items : List Reading} (h : p {}) (hItems : ∀ item ∈ items, item.Noted p) :
    (ofItems items).Noted p := by
  refine noted_of_children h fun step child hChild => ?_
  cases step with
  | left => cases hChild
  | right => cases hChild
  | item index => exact hItems child (List.mem_of_getElem? hChild)

end Reading

namespace Outcome

/-- The names on the topmost node are those by which an alternative was left, when those in
`expanding` had been entered; the names on any other node were entered there. -/
structure Labelled (definitions : Definitions) (expanding : List String) (a : Alternative)
    (o : Outcome) : Prop where
  noted : o.reading.Noted (definitions.Expansion ·.aliases)
  leads : ∀ name ∈ o.reading.remarks.aliases.head?, a.Mentions name
  fresh : ∀ name ∈ o.reading.remarks.aliases, name ∉ expanding

variable {definitions : Definitions} {expanding : List String} {a : Alternative} {o : Outcome}

/-- Where no name is noted on the topmost node, it is enough to look at those below. -/
theorem labelled_of_unlabelled_top (h : o.reading.Noted (definitions.Expansion ·.aliases))
    (hTop : o.reading.remarks.aliases = []) : o.Labelled definitions expanding a := by
  refine ⟨h, ?_, ?_⟩ <;> simp [hTop]

theorem labelled_of_unlabelled (h : o.reading.Noted (·.aliases = [])) :
    o.Labelled definitions expanding a := by
  refine labelled_of_unlabelled_top (h.imp fun remarks hNone => ?_) h.top
  rw [hNone]
  exact Definitions.expansion_nil

theorem Leaf.unlabelled {t : Tree} (h : Leaf t o) : o.reading.Noted (·.aliases = []) := by
  have hMarked {r : Reading} (m : Mismatch) (hNone : r.Noted (·.aliases = [])) :
      (r.withMismatch m).Noted (·.aliases = []) := hNone.remark _ hNone.top
  cases h with
  | nil => exact Reading.noted_ofValue _ rfl
  | number => exact Reading.noted_ofValue _ rfl
  | boolean => exact Reading.noted_ofValue _ rfl
  | mirrored => exact Reading.noted_ofTree rfl
  | refused t m => exact hMarked m (Reading.noted_ofTree rfl)
  | otherThan => exact hMarked _ (Reading.noted_ofValue _ rfl)

/-- Whatever led on from a member leads on from the choice. -/
theorem Labelled.member {alternatives : List Alternative} (h : o.Labelled definitions expanding a)
    (hMember : a ∈ alternatives) :
    o.Labelled definitions expanding (.schema (.choice alternatives)) :=
  ⟨h.noted, fun name hHead => .member hMember (h.leads name hHead), h.fresh⟩

/-- A name is noted outside of those that were noted while it was being expanded. -/
theorem Labelled.viaName {name : String} {s : Schema}
    (h : o.Labelled definitions (name :: expanding) (.schema s)) (hOther : name ∉ BuiltIn.names)
    (hFound : definitions.get? name = some s) (hFresh : name ∉ expanding) :
    (o.viaName name).Labelled definitions expanding (.atom (.named name)) := by
  have hAliases : (o.viaName name).reading.remarks.aliases =
      name :: o.reading.remarks.aliases :=
    congrArg Remarks.aliases (Reading.remarks_remark _ o.reading)
  have hNew : name ∉ o.reading.remarks.aliases :=
    fun hMember => h.fresh name hMember List.mem_cons_self
  have hExpansion := h.noted.top.cons hOther hFound hNew h.leads
  refine ⟨h.noted.remark _ hExpansion, ?_, ?_⟩
  · rw [hAliases]
    rintro _ ⟨⟩
    exact .name name
  · rw [hAliases]
    exact List.forall_mem_cons.mpr
      ⟨hFresh, fun other hMember hPending =>
        h.fresh other hMember (List.mem_cons_of_mem _ hPending)⟩

end Outcome

theorem Alternative.Yields.labelled {definitions : Definitions} {expanding : List String}
    {a : Alternative} {t : Tree} {o : Outcome} (h : a.Yields definitions expanding t o) :
    o.Labelled definitions expanding a := by
  induction h with
  | leaf leaf => exact Outcome.labelled_of_unlabelled leaf.unlabelled
  | @defined _ name _ _ _ other found fresh _ ih =>
      exact ih.viaName ((BuiltIn.ofName?_eq_none_iff name).mp other) found fresh
  | choice member _ ih => exact ih.member member
  | list _ ih =>
      refine Outcome.labelled_of_unlabelled_top ?_ rfl
      refine Reading.noted_ofItems Definitions.expansion_nil fun r hMember => ?_
      obtain ⟨o, hOutcome, rfl⟩ := List.mem_map.mp hMember
      obtain ⟨t', hItem, rfl⟩ := List.mem_map.mp hOutcome
      exact (ih t' hItem).noted
  | pair _ _ ihLeft ihRight =>
      refine Outcome.labelled_of_unlabelled_top ?_ rfl
      exact .ofPair Definitions.expansion_nil ihLeft.noted ihRight.noted

/-- The names that are noted on a node, at any depth of a reading, are a way through the
definitions: no name comes twice, none is built in, each is defined, and each stands for a
schema that has the next among its alternatives, outside of pairs and lists. So there are
no more of them than there are definitions. -/
theorem Schema.aliases_of_read (definitions : Definitions) (s : Schema) (t : Tree) (path : Path)
    (node : Reading) (hNode : (s.read definitions t).reading.descend? path = some node) :
    node.remarks.aliases.Nodup ∧
      (∀ name ∈ node.remarks.aliases, name ∉ BuiltIn.names ∧ name ∈ definitions.names) ∧
      node.remarks.aliases.IsChain (fun name next =>
        ∃ s, definitions.get? name = some s ∧ (Alternative.schema s).Mentions next) ∧
      node.remarks.aliases.length ≤ definitions.names.length := by
  have hLabelled := (s.yields_read definitions t).labelled
  have hExpansion : definitions.Expansion node.remarks.aliases := hLabelled.noted path node hNode
  exact ⟨hExpansion.distinct,
    fun name hMember => ⟨hExpansion.notBuiltIn name hMember, hExpansion.defined name hMember⟩,
    hExpansion.linked.imp fun _ _ hExpands => hExpands.2, hExpansion.length_le⟩

/-- In a list, a node that is reached through two names that stand for each other. -/
theorem Schema.aliases_of_read_entwined :
    let node := ((Reading.ofValue .nil).viaName "q").viaName "p"
    ((Schema.list (.named "p")).read .entwined (.ofList [.nil])).reading.descend? [.item 0] =
        some node ∧
      node.remarks.aliases = ["p", "q"] ∧ ["p", "q"].Nodup ∧
      (∀ name ∈ ["p", "q"], name ∉ BuiltIn.names ∧ name ∈ Definitions.entwined.names) ∧
      ["p", "q"].IsChain (fun name next =>
        ∃ s, Definitions.entwined.get? name = some s ∧ (Alternative.schema s).Mentions next) ∧
      ["p", "q"].length ≤ Definitions.entwined.names.length := by
  intro node
  have hP : Definitions.entwined.get? "p" =
      some (.choice [.atom (.named "q"), .atom (.named "nil")]) := by decide +kernel
  have hQ : Definitions.entwined.get? "q" =
      some (.choice [.atom (.named "p"), .atom (.named "nil")]) := by decide +kernel
  have hBuiltIn : BuiltIn.ofName? "nil" = some .nil := rfl
  have hNil (expanding : List String) : (Alternative.atom (.named "nil")).decode .entwined
      expanding .nil = .fits (.ofValue .nil) := Alternative.decode_builtIn .nil hBuiltIn
  have hAgain : (Alternative.atom (.named "p")).decode .entwined ["q", "p"] .nil =
      .refuse .nil (.circular "p") := Alternative.decode_circular .nil rfl hP (by decide)
  have hInner : (Alternative.atom (.named "q")).decode .entwined ["p"] .nil =
      (Outcome.fits (.ofValue .nil)).viaName "q" := by
    rw [Alternative.decode_defined .nil rfl hQ (by decide), Schema.decode_choice]
    simp only [Outcome.choose, List.map_cons, List.map_nil, hAgain, hNil]
    rfl
  have hOuter : (Alternative.atom (.named "p")).decode .entwined [] .nil =
      ((Outcome.fits (.ofValue .nil)).viaName "q").viaName "p" := by
    rw [Alternative.decode_defined .nil rfl hP (by decide), Schema.decode_choice]
    simp only [Outcome.choose, List.map_cons, List.map_nil, hInner, hNil]
    rfl
  have hNode : ((Schema.list (.named "p")).read .entwined (.ofList [.nil])).reading.descend?
      [.item 0] = some node := by
    rw [Schema.read, Schema.decode_list, Tree.items_ofList, List.map_singleton, Schema.named,
      Schema.decode_choice, Outcome.choose, hOuter]
    rfl
  exact ⟨hNode, rfl, Schema.aliases_of_read .entwined _ _ _ node hNode⟩

end TreeSchema
