import TreeSchema.Proofs.Matching.Recursion
import TreeSchema.Proofs.Reading.Address
import TreeSchema.Proofs.Reading.Path
import TreeSchema.Proofs.Tree.Number

/-! What stands at the nodes that do not fit. A mismatch is noted on a node only together
with the tree that was to be read there, and a choice that fails forgets what its
alternatives made of the tree. So below a marked node nothing is noted, and no error lies
below another. -/
namespace TreeSchema

namespace Tree

/-- The subtree one step below. Items are counted along the right spine. -/
def child? : Tree → Step → Option Tree
  | node left _, .left => some left
  | node _ right, .right => some right
  | t, .item index => t.items[index]?
  | nil, _ => none

/-- The subtree at the end of a path, unless the path leaves the tree. -/
def descend? (t : Tree) : Path → Option Tree
  | [] => some t
  | step :: path => (t.child? step).bind (·.descend? path)

end Tree

namespace Reading

/-- A reading without the remarks on its topmost node. -/
def plain (r : Reading) : Reading :=
  r.remark fun _ => {}

/-- How a node that is marked with a mismatch shows the tree that stood there: as it stood,
but a number other than the one that is wanted as a number. -/
def Shows (node : Reading) (t : Tree) : Mismatch → Prop
  | .otherThan wanted => ∃ n, n ≠ wanted ∧ t = .ofNat n.toNat ∧ node.plain = .ofValue (.number n)
  | _ => node.plain = .ofTree t

/-- Every marked node shows the subtree that stands at its place. -/
def Echoes (r : Reading) (t : Tree) : Prop :=
  ∀ path node m, r.descend? path = some node → node.remarks.mismatch = some m →
    ∃ u, t.descend? path = some u ∧ node.Shows u m

variable {r : Reading} {t : Tree}

/-! Remarks on a node change nothing below it. -/

@[simp] theorem child?_remark (f : Remarks → Remarks) (r : Reading) (step : Step) :
    (r.remark f).child? step = r.child? step := by
  cases r <;> cases step <;> rfl

theorem descend?_remark (f : Remarks → Remarks) (r : Reading) (step : Step) (path : Path) :
    (r.remark f).descend? (step :: path) = r.descend? (step :: path) := by
  rw [descend?, descend?, child?_remark]

@[simp] theorem remarks_remark (f : Remarks → Remarks) (r : Reading) :
    (r.remark f).remarks = f r.remarks := by
  cases r <;> rfl

@[simp] theorem plain_remark (f : Remarks → Remarks) (r : Reading) :
    (r.remark f).plain = r.plain := by
  cases r <;> rfl

theorem plain_ofTree (t : Tree) : (ofTree t).plain = ofTree t := by
  cases t <;> rfl

theorem shows_remark {f : Remarks → Remarks} {m : Mismatch} :
    (r.remark f).Shows t m ↔ r.Shows t m := by
  cases m <;> simp only [Shows, plain_remark]

/-- Nothing is noted on a tree that is given as it stands. -/
theorem remarks_of_descend?_ofTree {path : Path} {node : Reading}
    (h : (ofTree t).descend? path = some node) : node.remarks = {} := by
  induction path generalizing t with
  | nil =>
      cases h
      cases t <;> rfl
  | cons step path ih =>
      obtain ⟨child, hChild, hBelow⟩ := descend?_cons_eq_some_iff.mp h
      cases t with
      | nil => cases step <;> cases hChild
      | node left right =>
          cases step with
          | left =>
              cases hChild
              exact ih hBelow
          | right =>
              cases hChild
              exact ih hBelow
          | item index => cases hChild

/-- A marked node shows a tree or a number, and below that nothing is noted. -/
theorem Shows.remarks_below {node inner : Reading} {m : Mismatch} (h : node.Shows t m)
    {path : Path} (hPath : path ≠ []) (hInner : node.descend? path = some inner) :
    inner.remarks = {} := by
  obtain ⟨step, path, rfl⟩ := List.exists_cons_of_ne_nil hPath
  rw [← descend?_remark fun _ => {}] at hInner
  change node.plain.descend? (step :: path) = some inner at hInner
  have hTree (hShown : node.plain = .ofTree t) : inner.remarks = {} :=
    remarks_of_descend?_ofTree (hShown ▸ hInner)
  cases m with
  | otherThan wanted =>
      obtain ⟨n, -, -, hNumber⟩ := h
      rw [hNumber] at hInner
      cases step <;> cases hInner
  | _ => exact hTree h

/-! Which readings echo the tree that was read. -/

theorem echoes_of_unmarked
    (h : ∀ path node, r.descend? path = some node → node.remarks.mismatch = none) :
    r.Echoes t := by
  intro path node m hNode hMarked
  rw [h path node hNode] at hMarked
  cases hMarked

theorem echoes_ofTree : (ofTree t).Echoes t :=
  echoes_of_unmarked fun path node hNode => by rw [remarks_of_descend?_ofTree hNode]

theorem echoes_ofValue (v : Value) : (ofValue v).Echoes t := by
  apply echoes_of_unmarked
  intro path node hNode
  cases path with
  | nil =>
      cases hNode
      rfl
  | cons step path => cases step <;> cases hNode

/-- Remarks change what is to be shown only on the topmost node. -/
theorem Echoes.remark (h : r.Echoes t) (f : Remarks → Remarks)
    (hTop : ∀ m, (f r.remarks).mismatch = some m → r.Shows t m) : (r.remark f).Echoes t := by
  intro path node m hNode hMarked
  cases path with
  | nil =>
      cases hNode
      rw [remarks_remark] at hMarked
      exact ⟨t, rfl, shows_remark.mpr (hTop m hMarked)⟩
  | cons step path =>
      rw [descend?_remark] at hNode
      exact h (step :: path) node m hNode hMarked

/-- A node may be marked if it shows the tree. -/
theorem Echoes.withMismatch {m : Mismatch} (h : r.Echoes t) (hShows : r.Shows t m) :
    (r.withMismatch m).Echoes t := by
  refine h.remark _ fun m' hMarked => ?_
  cases hMarked
  exact hShows

theorem Echoes.viaName (h : r.Echoes t) (name : String) : (r.viaName name).Echoes t := by
  refine h.remark _ fun m hMarked => ?_
  obtain ⟨u, hTree, hShows⟩ := h [] r m rfl hMarked
  cases hTree
  exact hShows

/-- Where a node itself is not marked, it is enough that its children echo the subtrees. -/
theorem echoes_of_children (hTop : r.remarks.mismatch = none)
    (h : ∀ step child, r.child? step = some child →
      ∃ u, t.child? step = some u ∧ child.Echoes u) : r.Echoes t := by
  intro path node m hNode hMarked
  cases path with
  | nil =>
      cases hNode
      rw [hTop] at hMarked
      cases hMarked
  | cons step path =>
      obtain ⟨child, hChild, hBelow⟩ := descend?_cons_eq_some_iff.mp hNode
      obtain ⟨u, hSubtree, hEchoes⟩ := h step child hChild
      obtain ⟨u', hPath, hShows⟩ := hEchoes path node m hBelow hMarked
      exact ⟨u', Option.bind_eq_some_iff.mpr ⟨u, hSubtree, hPath⟩, hShows⟩

theorem Echoes.ofPair {left right : Reading} {l r : Tree} (hLeft : left.Echoes l)
    (hRight : right.Echoes r) : (ofPair left right).Echoes (.node l r) := by
  apply echoes_of_children rfl
  intro step child hChild
  cases step with
  | left =>
      cases hChild
      exact ⟨l, rfl, hLeft⟩
  | right =>
      cases hChild
      exact ⟨r, rfl, hRight⟩
  | item index => cases hChild

theorem echoes_ofItems {read : Tree → Reading} (h : ∀ u ∈ t.items, (read u).Echoes u) :
    (ofItems (t.items.map read)).Echoes t := by
  apply echoes_of_children rfl
  intro step child hChild
  cases step with
  | left => cases hChild
  | right => cases hChild
  | item index =>
      change (t.items.map read)[index]? = some child at hChild
      rw [List.getElem?_map] at hChild
      obtain ⟨u, hItem, rfl⟩ := Option.map_eq_some_iff.mp hChild
      have hStep : t.child? (.item index) = t.items[index]? := by cases t <;> rfl
      exact ⟨u, hStep.trans hItem, h u (List.mem_of_getElem? hItem)⟩

/-- Where nothing is noted below a marked node, no error lies below another. -/
theorem errors_apart (h : ∀ path node m, r.descend? path = some node →
      node.remarks.mismatch = some m →
      ∀ below ≠ [], ∀ inner, node.descend? below = some inner → inner.remarks = {}) :
    ∀ e ∈ r.errors, ∀ e' ∈ r.errors, e.path ≠ e'.path → ¬ e.path <+: e'.path := by
  rintro e hFirst e' hOther hApart ⟨below, hBelow⟩
  obtain ⟨node, hNode, hMarked⟩ := mem_errors_iff.mp hFirst
  obtain ⟨inner, hInner, hMarkedBelow⟩ := mem_errors_iff.mp hOther
  have hStep : below ≠ [] := by
    rintro rfl
    exact hApart (by rw [← hBelow, List.append_nil])
  rw [← hBelow, descend?_append, hNode] at hInner
  rw [h e.path node e.mismatch hNode hMarked below hStep inner hInner] at hMarkedBelow
  cases hMarkedBelow

end Reading

namespace Outcome

/-- Every marked node of the reading shows the subtree that stands at its place. -/
def Echoes (o : Outcome) (t : Tree) : Prop :=
  o.reading.Echoes t

variable {t : Tree}

theorem echoes_refuse {m : Mismatch} (h : (Reading.ofTree t).Shows t m) : (refuse t m).Echoes t :=
  Reading.echoes_ofTree.withMismatch h

theorem Leaf.echoes {o : Outcome} (h : Leaf t o) : o.Echoes t := by
  cases h with
  | nil => exact Reading.echoes_ofValue _
  | number => exact Reading.echoes_ofValue _
  | boolean => exact Reading.echoes_ofValue _
  | mirrored => exact Reading.echoes_ofTree
  | refused t m whole =>
      cases m with
      | otherThan n => exact absurd rfl (whole n)
      | _ => exact echoes_refuse (Reading.plain_ofTree t)
  | @otherThan _ n _ isNumber differs =>
      exact (Reading.echoes_ofValue _).withMismatch
        ⟨n, differs, (Tree.number?_eq_some_iff t n).mp isNumber, rfl⟩

end Outcome

/-- What is chosen among outcomes echoes the tree if they do. If none is chosen, the tree is
shown as it stands, whatever the outcomes show. -/
theorem Alternative.Yields.echoes {definitions : Definitions} {expanding : List String}
    {a : Alternative} {t : Tree} {o : Outcome} (h : a.Yields definitions expanding t o) :
    o.Echoes t := by
  induction h with
  | leaf leaf => exact leaf.echoes
  | @defined _ name _ _ _ _ _ _ _ ih => exact Reading.Echoes.viaName ih name
  | choice _ _ ih => exact ih
  | list _ ih =>
      rw [Outcome.Echoes, Outcome.ofItems, List.map_map]
      exact Reading.echoes_ofItems ih
  | pair _ _ ihLeft ihRight => exact Reading.Echoes.ofPair ihLeft ihRight

theorem Alternative.echoes_decode (definitions : Definitions) (expanding : List String)
    (a : Alternative) (t : Tree) : (a.decode definitions expanding t).Echoes t :=
  (a.yields_decode definitions expanding t).echoes

/-- A node that is marked in a reading shows the subtree that stands at its place, as it
stands, or as a number if it is a number other than the one that is wanted; and nothing is
noted on any node below it. So no error lies below another: no written path of an error
begins with that of another error. -/
theorem Schema.errors_of_read_echo (definitions : Definitions) (s : Schema) (t : Tree) :
    (∀ path node m, (s.read definitions t).reading.descend? path = some node →
      node.remarks.mismatch = some m →
      (∀ below ≠ [], ∀ inner, node.descend? below = some inner → inner.remarks = {}) ∧
      ∃ u, t.descend? path = some u ∧ node.Shows u m) ∧
    (s.read definitions t).reading.errors.Pairwise fun e e' =>
      ¬ e.path.text.toList <+: e'.path.text.toList ∧
        ¬ e'.path.text.toList <+: e.path.text.toList := by
  have hEchoes := Alternative.echoes_decode definitions [] (.schema s) t
  rw [Alternative.decode_schema] at hEchoes
  have hNodes (path : Path) (node : Reading) (m : Mismatch)
      (hNode : (s.read definitions t).reading.descend? path = some node)
      (hMarked : node.remarks.mismatch = some m) :
      (∀ below ≠ [], ∀ inner, node.descend? below = some inner → inner.remarks = {}) ∧
      ∃ u, t.descend? path = some u ∧ node.Shows u m := by
    obtain ⟨u, hTree, hShows⟩ := hEchoes path node m hNode hMarked
    exact ⟨fun below hBelow inner hInner => hShows.remarks_below hBelow hInner, u, hTree, hShows⟩
  refine ⟨hNodes, (Reading.errors_ordered _).imp_of_mem fun hFirst hOther hBefore => ?_⟩
  have hApart := Reading.errors_apart fun path node m hNode hMarked =>
    (hNodes path node m hNode hMarked).1
  rw [Path.text_isPrefix_iff, Path.text_isPrefix_iff]
  exact ⟨hApart _ hFirst _ hOther hBefore.ne, hApart _ hOther _ hFirst hBefore.ne.symm⟩

end TreeSchema
