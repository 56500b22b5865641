import Mathlib.Data.List.Perm.Subperm
import TreeSchema.Proofs.Matching.CycleGuard
import TreeSchema.Proofs.Tree.Height

/-! How deep the calls of the reader are nested. A call hands the same node to smaller
schemas, to the definition of a name that it has not entered there, or hands on children.
So the schema, the names that are left and the height of the tree decrease in turn, and
together they bound the nesting, on circular definitions as well. -/
namespace TreeSchema

mutual

/-- How many constructors of schemas are nested in a schema. -/
def Schema.nesting : Schema → Nat
  | .choice alternatives => Alternative.mostNesting alternatives + 1
  | .list item => item.nesting + 1
  | .pair left right => max left.nesting right.nesting + 1

def Alternative.nesting : Alternative → Nat
  | .atom _ => 0
  | .schema s => s.nesting

def Alternative.mostNesting : List Alternative → Nat
  | [] => 0
  | a :: as => max a.nesting (Alternative.mostNesting as)

end

/-- The nesting of the definition that is nested most. -/
def Definitions.nesting (definitions : Definitions) : Nat :=
  definitions.entries.foldr (fun entry most => max entry.2.nesting most) 0

theorem Schema.nesting_pos (s : Schema) : 0 < s.nesting := by
  cases s <;> exact Nat.succ_pos _

theorem Alternative.nesting_le_mostNesting {alternatives : List Alternative} {a : Alternative}
    (h : a ∈ alternatives) : a.nesting ≤ Alternative.mostNesting alternatives := by
  induction alternatives with
  | nil => cases h
  | cons first others ih =>
      rcases List.mem_cons.mp h with rfl | hLater
      · exact Nat.le_max_left ..
      · exact Nat.le_trans (ih hLater) (Nat.le_max_right ..)

theorem Definitions.nesting_le {definitions : Definitions} {name : String} {s : Schema}
    (h : definitions.get? name = some s) : s.nesting ≤ definitions.nesting := by
  obtain ⟨before, after, hSplit, -⟩ := List.lookup_eq_some_iff.mp h
  rw [nesting, hSplit]
  clear hSplit
  induction before with
  | nil => exact Nat.le_max_left ..
  | cons first others ih => exact Nat.le_trans ih (Nat.le_max_right ..)

/-- The first alternative of a choice is tried in any case. -/
theorem Alternative.first_mem_tried (outcome : Alternative → Outcome) (first : Alternative)
    (others : List Alternative) : first ∈ Alternative.tried outcome (first :: others) := by
  unfold tried
  split <;> exact List.mem_cons_self

theorem Definitions.unexpanded_le (definitions : Definitions) (expanding : List String) :
    definitions.unexpanded expanding ≤ definitions.entries.length := by
  have hCount := List.countP_le_length (p := (· ∉ expanding)) (l := definitions.names)
  rw [NameTable.names, List.length_map] at hCount
  exact hCount

/-- What the reader is handed when it is called on a schema. -/
structure Call where
  expanding : List String
  schema : Schema
  tree : Tree

/-- The call, if any, that an alternative leads to at a node. -/
inductive Alternative.Enters (definitions : Definitions) (expanding : List String) (t : Tree) :
    Alternative → Call → Prop where
  | schema (s : Schema) : Enters definitions expanding t (.schema s) ⟨expanding, s, t⟩
  | name {name : String} {s : Schema} (other : BuiltIn.ofName? name = none)
      (found : definitions.get? name = some s) (fresh : name ∉ expanding) :
      Enters definitions expanding t (.atom (.named name)) ⟨name :: expanding, s, t⟩

namespace Call

/-- The calls that are made right inside a call. A choice tries its alternatives up to the
first that fits. -/
inductive Makes (definitions : Definitions) : Call → Call → Prop where
  | choice {expanding : List String} {alternatives : List Alternative} {a : Alternative}
      {t : Tree} {inner : Call}
      (tried : a ∈ Alternative.tried (·.decode definitions expanding t) alternatives)
      (enters : a.Enters definitions expanding t inner) :
      Makes definitions ⟨expanding, .choice alternatives, t⟩ inner
  | item {expanding : List String} {item : Schema} {t t' : Tree} (member : t' ∈ t.items) :
      Makes definitions ⟨expanding, .list item, t⟩ ⟨[], item, t'⟩
  | left {expanding : List String} {left right : Schema} {l r : Tree} :
      Makes definitions ⟨expanding, .pair left right, .node l r⟩ ⟨[], left, l⟩
  | right {expanding : List String} {left right : Schema} {l r : Tree} :
      Makes definitions ⟨expanding, .pair left right, .node l r⟩ ⟨[], right, r⟩

/-- `first.Reaches definitions depth call` says that while `first` runs, `call` is the
innermost of `depth` calls that are nested in each other, of which `first` is the outermost. -/
inductive Reaches (definitions : Definitions) : Call → Nat → Call → Prop where
  | here (call : Call) : Reaches definitions call 1 call
  | inside {first next last : Call} {depth : Nat} (makes : first.Makes definitions next)
      (rest : Reaches definitions next depth last) : Reaches definitions first (depth + 1) last

/-- Whether the reader comes to the end of a call with at most `fuel` nested calls. -/
def ReturnsWithin (definitions : Definitions) (fuel : Nat) (call : Call) : Prop :=
  call.schema.decodeWithin .once definitions fuel call.expanding call.tree =
    some (call.schema.decode definitions call.expanding call.tree)

end Call

section

variable {definitions : Definitions} {fuel : Nat}

/-- What returns with a bound on the nesting is what the reader returns. -/
theorem Schema.decode_of_decodeWithin {expanding : List String} {s : Schema} {t : Tree}
    {o : Outcome} (h : s.decodeWithin .once definitions fuel expanding t = some o) :
    s.decode definitions expanding t = o := by
  obtain ⟨enough, hReturns⟩ := Schema.exists_fuel_once expanding s t
  have hLeft := Schema.decodeWithin_mono (Nat.le_max_left fuel enough) h
  have hRight := Schema.decodeWithin_mono (Nat.le_max_right fuel enough) hReturns
  exact Option.some.inj (hRight.symm.trans hLeft)

theorem Call.returnsWithin_of_eq_some {call : Call} {o : Outcome}
    (h : call.schema.decodeWithin .once definitions fuel call.expanding call.tree = some o) :
    call.ReturnsWithin definitions fuel := by
  rw [Call.ReturnsWithin, Schema.decode_of_decodeWithin h]
  exact h

/-- An alternative is read like the choice that consists of it. -/
theorem Alternative.decode_of_decodeBy {expanding : List String} {a : Alternative} {t : Tree}
    {o : Outcome} (h : a.decodeBy .once definitions (Schema.decodeWithin .once definitions fuel)
      expanding t = some o) : a.decode definitions expanding t = o := by
  have hChoice : (Schema.choice [a]).decodeWithin .once definitions (fuel + 1) expanding t =
      some o := h
  have hSame := Schema.decode_of_decodeWithin hChoice
  rw [Schema.decode_choice] at hSame
  exact hSame

/-- An alternative returns exactly if the call that it leads to does. -/
theorem Alternative.returns_iff (expanding : List String) (a : Alternative) (t : Tree) :
    a.decodeBy .once definitions (Schema.decodeWithin .once definitions fuel) expanding t =
        some (a.decode definitions expanding t) ↔
      ∀ inner, a.Enters definitions expanding t inner → inner.ReturnsWithin definitions fuel := by
  constructor
  · intro h inner hEnters
    cases hEnters with
    | schema s =>
        rw [decode_schema] at h
        exact h
    | name other found fresh =>
        rw [decodeBy, other] at h
        simp only [found, EntryRule.once, if_neg fresh] at h
        obtain ⟨o, hInner, -⟩ := Option.map_eq_some_iff.mp h
        exact Call.returnsWithin_of_eq_some hInner
  · intro h
    cases a with
    | schema s =>
        rw [decode_schema]
        exact h _ (.schema s)
    | atom a =>
        cases a with
        | number n => rw [decode_number, decodeBy]
        | named name =>
            rw [decodeBy]
            cases hName : BuiltIn.ofName? name with
            | some b => rw [decode_builtIn t hName]
            | none =>
                cases hFound : definitions.get? name with
                | none => rw [decode_unknown t hName hFound]
                | some s =>
                    by_cases hPending : name ∈ expanding
                    · rw [decode_circular t hName hFound hPending]
                      simp only [EntryRule.once, if_pos hPending]
                    · have hInner := h _ (.name hName hFound hPending)
                      rw [Call.ReturnsWithin] at hInner
                      rw [decode_defined t hName hFound hPending]
                      simp only [EntryRule.once, if_neg hPending, hInner, Option.map_some]

namespace Call

/-- A call returns exactly if the calls that it makes return with one level less. -/
theorem returnsWithin_succ_iff (call : Call) :
    call.ReturnsWithin definitions (fuel + 1) ↔
      ∀ inner, call.Makes definitions inner → inner.ReturnsWithin definitions fuel := by
  obtain ⟨expanding, s, t⟩ := call
  change s.decodeBy .once definitions (Schema.decodeWithin .once definitions fuel) expanding t =
    some (s.decode definitions expanding t) ↔ _
  match s, t with
  | .choice alternatives, t =>
      have hSame (a : Alternative) (_ : a ∈ alternatives) (o : Outcome)
          (h : a.decodeBy .once definitions (Schema.decodeWithin .once definitions fuel)
            expanding t = some o) := Alternative.decode_of_decodeBy h
      rw [Schema.decodeBy, Schema.decode_choice]
      constructor
      · intro h inner hMakes
        cases hMakes with
        | choice tried enters =>
            have hTried := (Outcome.choose?_eq_some hSame h).2 _ tried
            exact (Alternative.returns_iff expanding _ t).mp hTried inner enters
      · intro h
        apply Outcome.choose?_of_tried
        intro a hTried
        exact (Alternative.returns_iff expanding a t).mpr
          fun inner hEnters => h inner (.choice hTried hEnters)
  | .list item, t =>
      rw [Schema.decodeBy, Schema.decode_list]
      constructor
      · intro h inner hMakes
        cases hMakes with
        | item member =>
            obtain ⟨items, hItems, -⟩ := Option.map_eq_some_iff.mp h
            have hSame (t' : Tree) (_ : t' ∈ t.items) (o : Outcome)
                (hItem : item.decodeWithin .once definitions fuel [] t' = some o) :=
              Schema.decode_of_decodeWithin hItem
            exact (mapM_eq_some_map hSame hItems).2 _ member
      · intro h
        have hItems : t.items.mapM (item.decodeWithin .once definitions fuel []) =
            some (t.items.map (item.decode definitions [])) :=
          mapM_of_forall fun t' hMember => h ⟨[], item, t'⟩ (.item hMember)
        rw [hItems, Option.map_some]
  | .pair left right, .nil =>
      rw [Schema.decodeBy, Schema.decode_pair_nil]
      exact ⟨fun _ inner hMakes => (by cases hMakes), fun _ => rfl⟩
  | .pair left right, .node l r =>
      rw [Schema.decodeBy, Schema.decode_pair_node]
      constructor
      · intro h
        split at h
        · next outcomeLeft outcomeRight hLeft hRight =>
            intro inner hMakes
            cases hMakes with
            | left => exact returnsWithin_of_eq_some hLeft
            | right => exact returnsWithin_of_eq_some hRight
        · cases h
      · intro h
        have hLeft := h ⟨[], left, l⟩ .left
        have hRight := h ⟨[], right, r⟩ .right
        rw [ReturnsWithin] at hLeft hRight
        rw [hLeft, hRight]

/-- So the counter that a call needs is the depth to which calls are nested in it. -/
theorem returnsWithin_iff (fuel : Nat) (call : Call) :
    call.ReturnsWithin definitions fuel ↔
      ∀ depth inner, call.Reaches definitions depth inner → depth ≤ fuel := by
  induction fuel generalizing call with
  | zero =>
      constructor
      · intro h
        cases h
      · intro h
        exact absurd (h 1 call (.here call)) (Nat.not_succ_le_zero 0)
  | succ fuel ih =>
      rw [returnsWithin_succ_iff]
      constructor
      · intro h depth inner hReaches
        cases hReaches with
        | here => exact Nat.succ_pos fuel
        | inside makes rest => exact Nat.succ_le_succ ((ih _).mp (h _ makes) _ _ rest)
      · intro h next hMakes
        apply (ih next).mpr
        intro depth inner hReaches
        exact Nat.le_of_succ_le_succ (h _ _ (.inside hMakes hReaches))

/-- The names that are being expanded are defined, and none has been entered twice. -/
structure Proper (definitions : Definitions) (call : Call) : Prop where
  distinct : call.expanding.Nodup
  defined : ∀ name ∈ call.expanding, name ∈ definitions.names

/-- How deep calls can still be nested in a call, where no definition has more than
`nesting` nested constructors: those of the schema, then as many for each name that is left
at this node, then at each node below as many for each name again. -/
def room (definitions : Definitions) (nesting : Nat) (call : Call) : Nat :=
  call.schema.nesting + definitions.unexpanded call.expanding * nesting +
    call.tree.height * ((definitions.entries.length + 1) * nesting)

variable {call inner : Call} {nesting : Nat}

theorem Makes.proper (h : call.Makes definitions inner) (hCall : call.Proper definitions) :
    inner.Proper definitions := by
  have hNone (s : Schema) (t : Tree) : Proper definitions ⟨[], s, t⟩ := ⟨List.nodup_nil, by simp⟩
  cases h with
  | choice tried enters =>
      cases enters with
      | schema s => exact ⟨hCall.distinct, hCall.defined⟩
      | name other found fresh =>
          exact ⟨List.nodup_cons.mpr ⟨fresh, hCall.distinct⟩,
            List.forall_mem_cons.mpr ⟨NameTable.mem_names_of_get? found, hCall.defined⟩⟩
  | item => exact hNone _ _
  | left => exact hNone _ _
  | right => exact hNone _ _

/-- At a child all names are left again, but there are fewer nodes below. -/
theorem room_child_lt {s : Schema} {t : Tree} (hNesting : s.nesting < call.schema.nesting)
    (hHeight : t.height < call.tree.height) :
    room definitions nesting ⟨[], s, t⟩ < room definitions nesting call := by
  have hNames : definitions.unexpanded [] * nesting ≤ (definitions.entries.length + 1) * nesting :=
    Nat.mul_le_mul_right _ (Nat.le_succ_of_le (definitions.unexpanded_le []))
  have hNodes := Nat.mul_le_mul_right ((definitions.entries.length + 1) * nesting) hHeight
  rw [Nat.succ_mul] at hNodes
  simp only [room]
  omega

/-- One step of the argument: inside a call there is less room than in it. -/
theorem Makes.room_lt (h : call.Makes definitions inner)
    (hDefinitions : definitions.nesting ≤ nesting) :
    inner.room definitions nesting < call.room definitions nesting := by
  cases h with
  | choice tried enters =>
      have hMember := Alternative.nesting_le_mostNesting (Alternative.mem_of_mem_tried tried)
      cases enters with
      | schema s =>
          simp only [Alternative.nesting] at hMember
          simp only [room, Schema.nesting]
          omega
      | name other found fresh =>
          have hLess := Definitions.unexpanded_cons_lt (NameTable.mem_names_of_get? found) fresh
          have hNames := Nat.mul_le_mul_right nesting hLess
          have hSchema := Nat.le_trans (Definitions.nesting_le found) hDefinitions
          rw [Nat.succ_mul] at hNames
          simp only [room, Schema.nesting]
          omega
  | item member => exact room_child_lt (Nat.lt_succ_self _) (Tree.height_lt_of_mem_items member)
  | left =>
      exact room_child_lt (Nat.lt_succ_of_le (Nat.le_max_left ..)) (Tree.height_left_lt _ _)
  | right =>
      exact room_child_lt (Nat.lt_succ_of_le (Nat.le_max_right ..)) (Tree.height_right_lt _ _)

namespace Reaches

variable {first last : Call} {depth : Nat}

theorem proper (h : first.Reaches definitions depth last) (hFirst : first.Proper definitions) :
    last.Proper definitions := by
  induction h with
  | here => exact hFirst
  | inside makes _ ih => exact ih (makes.proper hFirst)

theorem depth_le_room (h : first.Reaches definitions depth last)
    (hDefinitions : definitions.nesting ≤ nesting) : depth ≤ first.room definitions nesting := by
  induction h with
  | here call =>
      have hSchema := call.schema.nesting_pos
      simp only [room]
      omega
  | inside makes _ ih => exact Nat.lt_of_le_of_lt ih (makes.room_lt hDefinitions)

end Reaches

/-- The room of a first call, at which no name has been entered yet. -/
theorem room_le (s : Schema) (t : Tree) (hSchema : s.nesting ≤ nesting) :
    room definitions nesting ⟨[], s, t⟩ ≤
      (t.height + 1) * (definitions.entries.length + 1) * nesting := by
  have hNames := Nat.mul_le_mul_right nesting (definitions.unexpanded_le [])
  rw [Nat.mul_assoc, Nat.succ_mul t.height, Nat.succ_mul definitions.entries.length]
  simp only [room, Nat.succ_mul]
  omega

theorem Proper.length_le (h : call.Proper definitions) :
    call.expanding.length ≤ definitions.entries.length := by
  have hLength := (List.subperm_of_subset h.distinct h.defined).length_le
  rw [NameTable.names, List.length_map] at hLength
  exact hLength

end Call

/-- A bound on the nesting of calls: the nodes above each other, times the names that may
be entered at each, times the constructors nested in each schema, with one more of each. -/
def Schema.mostCalls (definitions : Definitions) (s : Schema) (t : Tree) : Nat :=
  (t.height + 1) * (definitions.entries.length + 1) * (max s.nesting definitions.nesting + 1)

/-- Reading always ends: a counter of `mostCalls` nested calls is not exhausted, and no
call is nested deeper. At every call the names that are being expanded are defined names,
each of them once. -/
theorem Schema.calls_bounded (definitions : Definitions) (s : Schema) (t : Tree) :
    s.decodeWithin .once definitions (s.mostCalls definitions t) [] t =
        some (s.read definitions t) ∧
      ∀ depth call, (Call.mk [] s t).Reaches definitions depth call →
        depth ≤ s.mostCalls definitions t ∧ call.expanding.Nodup ∧
          (∀ name ∈ call.expanding, name ∈ definitions.names) ∧
          call.expanding.length ≤ definitions.entries.length := by
  have hDepth (depth : Nat) (call : Call) (h : (Call.mk [] s t).Reaches definitions depth call) :
      depth ≤ s.mostCalls definitions t := by
    calc depth ≤ Call.room definitions (max s.nesting definitions.nesting) ⟨[], s, t⟩ :=
          h.depth_le_room (Nat.le_max_right ..)
      _ ≤ (t.height + 1) * (definitions.entries.length + 1) *
            max s.nesting definitions.nesting := Call.room_le s t (Nat.le_max_left ..)
      _ ≤ s.mostCalls definitions t := Nat.mul_le_mul_left _ (Nat.le_succ _)
  refine ⟨(Call.returnsWithin_iff _ ⟨[], s, t⟩).mpr hDepth, fun depth call h => ?_⟩
  have hProper := h.proper ⟨List.nodup_nil, by simp⟩
  exact ⟨hDepth depth call h, hProper.distinct, hProper.defined, hProper.length_le⟩

end

/-- Two names that stand for each other, or for `nil`. -/
def Definitions.entwined : Definitions :=
  .ofPairs [("p", .choice [.atom (.named "q"), .atom (.named "nil")]),
    ("q", .choice [.atom (.named "p"), .atom (.named "nil")])]

/-- Both names come to be expanded at one node, three calls deep. -/
theorem Schema.calls_bounded_entwined :
    (Call.mk [] (.named "p") .nil).Reaches .entwined 3
        ⟨["q", "p"], .choice [.atom (.named "p"), .atom (.named "nil")], .nil⟩ ∧
      3 ≤ (Schema.named "p").mostCalls .entwined .nil ∧ ["q", "p"].Nodup ∧
      (∀ name ∈ ["q", "p"], name ∈ Definitions.entwined.names) ∧
      ["q", "p"].length ≤ Definitions.entwined.entries.length := by
  have hP : Definitions.entwined.get? "p" =
      some (.choice [.atom (.named "q"), .atom (.named "nil")]) := by decide +kernel
  have hQ : Definitions.entwined.get? "q" =
      some (.choice [.atom (.named "p"), .atom (.named "nil")]) := by decide +kernel
  have hFirst : (Call.mk [] (.named "p") .nil).Makes .entwined
      ⟨["p"], .choice [.atom (.named "q"), .atom (.named "nil")], .nil⟩ :=
    .choice (Alternative.first_mem_tried _ _ _) (.name (by decide) hP (by decide))
  have hSecond : (Call.mk ["p"] (.choice [.atom (.named "q"), .atom (.named "nil")]) .nil).Makes
      .entwined ⟨["q", "p"], .choice [.atom (.named "p"), .atom (.named "nil")], .nil⟩ :=
    .choice (Alternative.first_mem_tried _ _ _) (.name (by decide) hQ (by decide))
  have hReaches := Call.Reaches.inside hFirst (.inside hSecond (.here _))
  exact ⟨hReaches, (Schema.calls_bounded .entwined (.named "p") .nil).2 3 _ hReaches⟩

end TreeSchema
