import TreeSchema.Proofs.Definitions.Blame
import TreeSchema.Proofs.Matching.Membership

/-! Which definitions the reading of a tree depends on. A name is reached if it occurs in
the schema, or in what a reached name stands for; what is defined under a built-in name
leads nowhere. Two sets of definitions that agree on the names that are reached give the same
readings. So the definitions of built-in names may as well be left out, and these are the
names that are reported as shadowed. -/
namespace TreeSchema

/-- The names that occur in an alternative, also inside of pairs and lists. -/
inductive Alternative.Uses : Alternative → String → Prop where
  | name (name : String) : Uses (.atom (.named name)) name
  | member {alternatives : List Alternative} {a : Alternative} {name : String}
      (member : a ∈ alternatives) (uses : Uses a name) : Uses (.schema (.choice alternatives)) name
  | item {item : Schema} {name : String} (uses : Uses (.schema item) name) :
      Uses (.schema (.list item)) name
  | left {left right : Schema} {name : String} (uses : Uses (.schema left) name) :
      Uses (.schema (.pair left right)) name
  | right {left right : Schema} {name : String} (uses : Uses (.schema right) name) :
      Uses (.schema (.pair left right)) name

/-- The names that are reached from an alternative through definitions. -/
inductive Alternative.Reaches (definitions : Definitions) (a : Alternative) : String → Prop where
  | uses {name : String} (uses : a.Uses name) : Reaches definitions a name
  | through {name other : String} {s : Schema} (reaches : Reaches definitions a name)
      (notBuiltIn : name ∉ BuiltIn.names) (found : definitions.get? name = some s)
      (uses : (Alternative.schema s).Uses other) : Reaches definitions a other

namespace Alternative

variable {definitions others : Definitions}

/-- What occurs in one alternative is reached from another, and so is all that follows. -/
theorem Reaches.trans {a b : Alternative} {name : String} (h : b.Reaches definitions name)
    (hUses : ∀ other, b.Uses other → a.Reaches definitions other) :
    a.Reaches definitions name := by
  induction h with
  | uses uses => exact hUses _ uses
  | through _ notBuiltIn found uses ih => exact .through ih notBuiltIn found uses

/-- Whether the names that are reached from an alternative stand for the same in others,
unless they are built in. -/
def AgreesOn (definitions others : Definitions) (a : Alternative) : Prop :=
  ∀ name, a.Reaches definitions name → name ∉ BuiltIn.names →
    definitions.get? name = others.get? name

namespace AgreesOn

variable {a b : Alternative}

theorem of_uses (h : AgreesOn definitions others a)
    (hUses : ∀ other, b.Uses other → a.Reaches definitions other) :
    AgreesOn definitions others b :=
  fun name hReaches => h name (hReaches.trans hUses)

theorem definition {name : String} {s : Schema}
    (h : AgreesOn definitions others (.atom (.named name))) (hOther : name ∉ BuiltIn.names)
    (hFound : definitions.get? name = some s) : AgreesOn definitions others (.schema s) :=
  h.of_uses fun _ hUses => .through (.uses (.name name)) hOther hFound hUses

theorem member {alternatives : List Alternative}
    (h : AgreesOn definitions others (.schema (.choice alternatives)))
    (hMember : a ∈ alternatives) : AgreesOn definitions others a :=
  h.of_uses fun _ hUses => .uses (.member hMember hUses)

theorem item {item : Schema} (h : AgreesOn definitions others (.schema (.list item))) :
    AgreesOn definitions others (.schema item) :=
  h.of_uses fun _ hUses => .uses (.item hUses)

variable {first second : Schema} (h : AgreesOn definitions others (.schema (.pair first second)))

include h

theorem left : AgreesOn definitions others (.schema first) :=
  h.of_uses fun _ hUses => .uses (.left hUses)

theorem right : AgreesOn definitions others (.schema second) :=
  h.of_uses fun _ hUses => .uses (.right hUses)

end AgreesOn

/-- The two runs look up the same names at each call, for only names that are reached are
looked up. -/
theorem decode_congr (expanding : List String) (a : Alternative) (t : Tree)
    (h : AgreesOn definitions others a) :
    a.decode definitions expanding t = a.decode others expanding t := by
  induction expanding, a, t using decode_induction definitions with
  | number expanding n t => rw [decode_number, decode_number]
  | builtIn expanding name b t hName => rw [decode_builtIn t hName, decode_builtIn t hName]
  | unknown expanding name t hOther hNone =>
      have hName := (BuiltIn.ofName?_eq_none_iff name).mp hOther
      have hSame := h name (.uses (.name name)) hName
      rw [decode_unknown t hOther hNone, decode_unknown t hOther (hSame.symm.trans hNone)]
  | circular expanding name s t hOther hFound hPending =>
      have hName := (BuiltIn.ofName?_eq_none_iff name).mp hOther
      have hSame := h name (.uses (.name name)) hName
      rw [decode_circular t hOther hFound hPending,
        decode_circular t hOther (hSame.symm.trans hFound) hPending]
  | defined expanding name s t hOther hFound hFresh ih =>
      have hName := (BuiltIn.ofName?_eq_none_iff name).mp hOther
      have hSame := h name (.uses (.name name)) hName
      have hInside := ih (h.definition hName hFound)
      rw [decode_schema, decode_schema] at hInside
      rw [decode_defined t hOther hFound hFresh,
        decode_defined t hOther (hSame.symm.trans hFound) hFresh, hInside]
  | choice expanding alternatives t ih =>
      rw [decode_schema, decode_schema, Schema.decode_choice, Schema.decode_choice]
      exact Outcome.choose_congr fun a hMember => ih a hMember (h.member hMember)
  | list expanding item t ih =>
      simp only [decode_schema] at ih
      rw [decode_schema, decode_schema, Schema.decode_list, Schema.decode_list,
        List.map_congr_left fun t' hItem => ih t' hItem h.item]
  | leaf expanding left right =>
      rw [decode_schema, decode_schema, Schema.decode_pair_nil, Schema.decode_pair_nil]
  | pair expanding left right l r ihLeft ihRight =>
      have hLeft := ihLeft h.left
      have hRight := ihRight h.right
      rw [decode_schema, decode_schema] at hLeft hRight
      rw [decode_schema, decode_schema, Schema.decode_pair_node, Schema.decode_pair_node, hLeft,
        hRight]

end Alternative

namespace Schema

variable {definitions others : Definitions}

theorem read_congr {s : Schema} (h : (Alternative.schema s).AgreesOn definitions others)
    (t : Tree) : s.read definitions t = s.read others t := by
  have hSame := Alternative.decode_congr [] (.schema s) t h
  rw [Alternative.decode_schema, Alternative.decode_schema] at hSame
  exact hSame

/-- Definitions of built-in names make no difference to any schema. -/
theorem read_congr_of_notBuiltIn
    (h : ∀ name, name ∉ BuiltIn.names → definitions.get? name = others.get? name) (s : Schema)
    (t : Tree) : s.read definitions t = s.read others t :=
  read_congr (fun name _ => h name) t

/-- A name that is looked up decides by its definition whether a leaf fits. -/
theorem failed_read_named_insert {name : String} (hOther : name ∉ BuiltIn.names)
    (definitions : Definitions) (definition : Schema) :
    ((Schema.named name).read (definitions.insert name definition) .nil).failed =
      (definition.decode (definitions.insert name definition) [name] .nil).failed := by
  have hFound : (definitions.insert name definition).get? name = some definition := by
    rw [NameTable.get?_insert, if_pos rfl]
  rw [Schema.read, Schema.named, Schema.decode_choice]
  change ((Alternative.atom (.named name)).decode _ [] .nil).failed = _
  rw [Alternative.decode_defined .nil ((BuiltIn.ofName?_eq_none_iff name).mpr hOther) hFound
    List.not_mem_nil]
  rfl

end Schema

theorem mem_shadowed_iff {α : Type} {definitions : NameTable α} {name : String} :
    name ∈ shadowed definitions ↔ name ∈ definitions.names ∧ name ∈ BuiltIn.names := by
  rw [shadowed, List.mem_filter, List.contains_iff_mem]

/-- The names of texts are the names of what they are read as. -/
theorem mem_names_of_compile {description : String} {texts : NameTable String} {c : Compiled}
    (h : compile description texts = .ok c) (name : String) :
    name ∈ texts.names ↔ name ∈ c.definitions.names := by
  have hSame := congrArg Option.isSome ((compile_eq_ok_iff.mp h).2 name)
  rw [Option.isSome_map, Option.isSome_map] at hSame
  rw [NameTable.mem_names_iff, NameTable.mem_names_iff, ← Option.isSome_iff_exists, hSame,
    Option.isSome_iff_exists]

/-- A reading depends on the definitions of the names that are reached and are not built in,
with all that is noted in it. So the definition of a name that is reported as shadowed can be
replaced or left out without changing any reading. Every other defined name has two
definitions that a schema and a tree tell apart. What is reported of texts is reported of the
definitions that they are read as. -/
theorem Schema.read_depends_on_reached :
    (∀ (definitions others : Definitions) (s : Schema),
      (∀ name, (Alternative.schema s).Reaches definitions name → name ∉ BuiltIn.names →
        definitions.get? name = others.get? name) →
      ∀ t, s.read definitions t = s.read others t) ∧
    (∀ definitions : Definitions,
      (∀ name ∈ shadowed definitions, ∀ (s : Schema) (t : Tree),
        (∀ definition, s.read (definitions.insert name definition) t = s.read definitions t) ∧
          s.read (definitions.filter (· != name)) t = s.read definitions t) ∧
      ∀ name ∈ definitions.names, name ∉ shadowed definitions →
        ∃ (first second s : Schema) (t : Tree),
          s.read (definitions.insert name first) t ≠ s.read (definitions.insert name second) t) ∧
    ∀ description texts c, compile description texts = .ok c →
      ∀ name, name ∈ shadowed texts ↔ name ∈ shadowed c.definitions := by
  refine ⟨fun definitions others s h t => read_congr h t, fun definitions => ⟨?_, ?_⟩, ?_⟩
  · intro name hShadowed s t
    have hBuiltIn := (mem_shadowed_iff.mp hShadowed).2
    constructor
    · intro definition
      refine read_congr_of_notBuiltIn (fun other hOther => ?_) s t
      rw [NameTable.get?_insert, if_neg (ne_of_mem_of_not_mem hBuiltIn hOther).symm]
    · refine read_congr_of_notBuiltIn (fun other hOther => ?_) s t
      have hNe : (other != name) = true := by
        simpa using (ne_of_mem_of_not_mem hBuiltIn hOther).symm
      rw [NameTable.get?_filter, if_pos hNe]
  · intro name hName hKept
    have hOther : name ∉ BuiltIn.names := fun hBuiltIn =>
      hKept (mem_shadowed_iff.mpr ⟨hName, hBuiltIn⟩)
    refine ⟨.list .any, .pair .any .any, .named name, .nil, fun hSame => ?_⟩
    have hFailed := congrArg Outcome.failed hSame
    rw [failed_read_named_insert hOther, failed_read_named_insert hOther, Schema.decode_list,
      Schema.decode_pair_nil] at hFailed
    cases hFailed
  · intro description texts c hCompile name
    rw [mem_shadowed_iff, mem_shadowed_iff, mem_names_of_compile hCompile]

/-- Here `spare` occurs in what is defined under a built-in name, and nowhere else. -/
theorem Schema.read_depends_on_reached_spare :
    let row := Schema.list (.named "int")
    let definitions := NameTable.ofPairs [("int", .named "spare"), ("row", row), ("spare", .any)]
    let others := NameTable.ofPairs [("row", row), ("spare", .list .any)]
    let texts := NameTable.ofPairs [("int", "spare"), ("row", "int[]"), ("spare", "any")]
    ((∀ name, (Alternative.schema (.named "row")).Reaches definitions name →
        name ∉ BuiltIn.names → definitions.get? name = others.get? name) ∧
      ∀ t, (Schema.named "row").read definitions t = (Schema.named "row").read others t) ∧
    ("int" ∈ shadowed definitions ∧
      (Schema.named "row").read (definitions.insert "int" row) (.ofNat 2) =
        (Schema.named "row").read definitions (.ofNat 2) ∧
      (Schema.named "row").read (definitions.filter (· != "int")) (.ofNat 2) =
        (Schema.named "row").read definitions (.ofNat 2)) ∧
    ("spare" ∈ definitions.names ∧ "spare" ∉ shadowed definitions ∧
      ∃ (first second s : Schema) (t : Tree), s.read (definitions.insert "spare" first) t ≠
        s.read (definitions.insert "spare" second) t) ∧
    compile "row" texts = .ok ⟨.named "row", definitions⟩ ∧
      ∀ name, name ∈ shadowed texts ↔ name ∈ shadowed definitions := by
  intro row definitions others texts
  have hFound : definitions.get? "row" = some (.list (.named "int")) := by decide +kernel
  have hReached (name : String) (h : (Alternative.schema (.named "row")).Reaches definitions name) :
      name = "row" ∨ name = "int" := by
    induction h with
    | uses uses =>
        cases uses with
        | member member uses =>
            cases List.mem_singleton.mp member
            cases uses
            exact .inl rfl
    | through _ notBuiltIn found uses ih =>
        rcases ih with rfl | rfl
        · rw [hFound] at found
          cases found
          cases uses with
          | item uses =>
              cases uses with
              | member member uses =>
                  cases List.mem_singleton.mp member
                  cases uses
                  exact .inr rfl
        · exact absurd (by decide) notBuiltIn
  have hAgrees (name : String) (h : (Alternative.schema (.named "row")).Reaches definitions name)
      (hOther : name ∉ BuiltIn.names) : definitions.get? name = others.get? name := by
    rcases hReached name h with rfl | rfl
    · decide +kernel
    · exact absurd (by decide) hOther
  have hCompile : compile "row" texts = .ok ⟨.named "row", definitions⟩ := by
    have hRow : Schema.ofText "int[]" = .ok row :=
      (Schema.ofText_text_of_writable (s := row) (by decide +kernel)).1
        ⟨⟨trivial, trivial⟩, by decide⟩
    have hMain : Schema.ofText "row" = .ok (.named "row") := Schema.ofText_name (by decide)
    have hSpare : Schema.ofText "spare" = .ok (.named "spare") := Schema.ofText_name (by decide)
    have hAny : Schema.ofText "any" = .ok (.named "any") := Schema.ofText_name (by decide)
    have hEntries : texts.entries = [("int", "spare"), ("row", "int[]"), ("spare", "any")] := by
      decide +kernel
    rw [compile, compileAfter_eq, hEntries, Definitions.ofSource_ok _ hMain, List.map_cons,
      List.map_cons, List.map_singleton, Definitions.failures_cons_ok hMain,
      Definitions.failures_cons_ok hSpare, Definitions.failures_cons_ok hRow,
      Definitions.failures_cons_ok hAny, Definitions.readable_cons_ok "int" hSpare,
      Definitions.readable_cons_ok "row" hRow, Definitions.readable_cons_ok "spare" hAny]
    rfl
  have hInt : "int" ∈ shadowed definitions := by decide +kernel
  have hSpare : "spare" ∈ definitions.names ∧ "spare" ∉ shadowed definitions := by decide +kernel
  obtain ⟨hReach, hShadowed, hTexts⟩ := Schema.read_depends_on_reached
  obtain ⟨hInsert, hFilter⟩ := (hShadowed definitions).1 "int" hInt (.named "row") (.ofNat 2)
  exact ⟨⟨hAgrees, hReach definitions others (.named "row") hAgrees⟩, ⟨hInt, hInsert row, hFilter⟩,
    ⟨hSpare.1, hSpare.2, (hShadowed definitions).2 "spare" hSpare.1 hSpare.2⟩, hCompile,
    hTexts "row" texts _ hCompile⟩

end TreeSchema
