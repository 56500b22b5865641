import TreeSchema.Definitions
import TreeSchema.Proofs.Except
import TreeSchema.Proofs.NameTable
import TreeSchema.Proofs.Schema.Rereading

/-! Two ways to read a description together with its definitions. One stops at the first
text that is wrong, the other goes through all of them and keeps every error. What both do
is decided by the errors of the texts, in their order, and by the definitions that are
right. So they accept the same texts, and blame the same one first. -/
namespace TreeSchema

namespace Definitions

/-- The errors of texts that are numbered from `source` on: one for each that is wrong. -/
def failures (source : Nat) : List String → List SyntaxError
  | [] => []
  | text :: texts =>
      match Schema.ofText text with
      | .ok _ => failures (source + 1) texts
      | .error e => e.inSource source :: failures (source + 1) texts

/-- The definitions whose texts are right. -/
def readable (texts : List (String × String)) : List (String × Schema) :=
  texts.filterMap fun (name, text) => (Schema.ofText text).toOption.map (Prod.mk name)

section

variable {source : Nat} {text : String} {texts : List String} {rest : List (String × String)}
  {s : Schema} {e : SyntaxError}

theorem failures_cons_ok (h : Schema.ofText text = .ok s) :
    failures source (text :: texts) = failures (source + 1) texts := by
  rw [failures, h]

theorem failures_cons_error (h : Schema.ofText text = .error e) :
    failures source (text :: texts) = e.inSource source :: failures (source + 1) texts := by
  rw [failures, h]

theorem failures_eq_nil_iff :
    failures source texts = [] ↔ ∀ text ∈ texts, ∃ s, Schema.ofText text = .ok s := by
  induction texts generalizing source with
  | nil => simp [failures]
  | cons text texts ih =>
      rw [List.forall_mem_cons]
      cases hRead : Schema.ofText text with
      | ok s => simp [failures_cons_ok hRead, ih]
      | error e => simp [failures_cons_error hRead]

theorem failures_nil_of_perm {texts' : List String} (hPerm : texts.Perm texts')
    (h : failures source texts = []) : failures source texts' = [] :=
  failures_eq_nil_iff.mpr fun text hText => failures_eq_nil_iff.mp h text (hPerm.mem_iff.mpr hText)

theorem readable_cons_ok (name : String) (h : Schema.ofText text = .ok s) :
    readable ((name, text) :: rest) = (name, s) :: readable rest := by
  simp [readable, h, Except.toOption]

theorem readable_cons_error (name : String) (h : Schema.ofText text = .error e) :
    readable ((name, text) :: rest) = readable rest := by
  simp [readable, h, Except.toOption]

end

theorem names_readable_sublist (texts : List (String × String)) :
    ((readable texts).map Prod.fst).Sublist (texts.map Prod.fst) := by
  induction texts with
  | nil => exact .slnil
  | cons entry rest ih =>
      obtain ⟨name, text⟩ := entry
      cases hRead : Schema.ofText text with
      | ok s =>
          rw [readable_cons_ok name hRead]
          exact ih.cons_cons name
      | error e =>
          rw [readable_cons_error name hRead]
          exact ih.cons name

/-- The definitions that are read do not depend on the order of their texts. -/
theorem ofPairs_readable_eq_of_perm {texts texts' : List (String × String)}
    (hPerm : texts.Perm texts') (hDistinct : (texts.map Prod.fst).Nodup) :
    NameTable.ofPairs (readable texts) = .ofPairs (readable texts') :=
  NameTable.ofPairs_eq_of_perm (hPerm.filterMap _) ((names_readable_sublist texts).nodup hDistinct)

/-! Up to the first error. -/

/-- One definition by itself. -/
def readEntry (entry : String × String) : Except DefinitionError (String × Schema) :=
  ((Schema.ofText entry.2).map (Prod.mk entry.1)).mapError (DefinitionError.mk (some entry.1))

section

variable {source : Nat} {text : String} {texts : List (String × String)} {s : Schema}

theorem readEntry_ok (name : String) (h : Schema.ofText text = .ok s) :
    readEntry (name, text) = .ok (name, s) := by
  rw [readEntry, h]
  rfl

theorem readEntry_error {e : SyntaxError} (name : String) (h : Schema.ofText text = .error e) :
    readEntry (name, text) = .error ⟨some name, e⟩ := by
  rw [readEntry, h]
  rfl

theorem mapM_readEntry_ok (h : failures source (texts.map Prod.snd) = []) :
    texts.mapM readEntry = .ok (readable texts) := by
  induction texts generalizing source with
  | nil => rfl
  | cons entry rest ih =>
      obtain ⟨name, text⟩ := entry
      rw [List.map_cons] at h
      cases hRead : Schema.ofText text with
      | error e =>
          rw [failures_cons_error hRead] at h
          cases h
      | ok s =>
          rw [failures_cons_ok hRead] at h
          rw [List.mapM_cons, readEntry_ok name hRead, ih h, readable_cons_ok name hRead]
          rfl

/-- The first text that is wrong is where the reading of definitions stops. -/
theorem mapM_readEntry_error {first : SyntaxError} {others : List SyntaxError}
    (h : failures source (texts.map Prod.snd) = first :: others) :
    ∃ index name text e, texts[index]? = some (name, text) ∧
      texts.mapM readEntry = .error ⟨some name, e⟩ ∧ first = e.inSource (source + index) := by
  induction texts generalizing source with
  | nil => cases h
  | cons entry rest ih =>
      obtain ⟨name, text⟩ := entry
      rw [List.map_cons] at h
      cases hRead : Schema.ofText text with
      | error e =>
          rw [failures_cons_error hRead] at h
          obtain ⟨rfl, -⟩ := List.cons.inj h
          refine ⟨0, name, text, e, rfl, ?_, rfl⟩
          rw [List.mapM_cons, readEntry_error name hRead]
          rfl
      | ok s =>
          rw [failures_cons_ok hRead] at h
          obtain ⟨index, name', text', e, hEntry, hStop, rfl⟩ := ih h
          refine ⟨index + 1, name', text', e, hEntry, ?_, by rw [Nat.add_right_comm, Nat.add_assoc]⟩
          rw [List.mapM_cons, readEntry_ok name hRead, hStop]
          rfl

end

/-! All errors. -/

/-- The sources of some definitions, in their order. -/
def asSources (texts : List (String × String)) : List Source :=
  texts.map fun (name, text) => ⟨s!"<atom {name}>", text⟩

section

variable {text : String} {s : Schema} {e : SyntaxError}

theorem ofSource_ok (source : Nat) (h : Schema.ofText text = .ok s) :
    Schema.ofSource text source = .ok s := by
  rw [Schema.ofSource, h]
  rfl

theorem ofSource_error (source : Nat) (h : Schema.ofText text = .error e) :
    Schema.ofSource text source = .error (e.inSource source) := by
  rw [Schema.ofSource, h]
  rfl

theorem addDefinition_ok (state : Compiling) (name : String) (h : Schema.ofText text = .ok s) :
    state.addDefinition (name, text) =
      { state with
        files := state.files ++ asSources [(name, text)]
        definitions := state.definitions.insert name s } := by
  rw [Compiling.addDefinition, ofSource_ok _ h]
  rfl

theorem addDefinition_error (state : Compiling) (name : String)
    (h : Schema.ofText text = .error e) :
    state.addDefinition (name, text) =
      { state with
        files := state.files ++ asSources [(name, text)]
        errors := state.errors ++ [e.inSource state.files.length] } := by
  rw [Compiling.addDefinition, ofSource_error _ h]
  rfl

/-- Going through definitions adds the source of each to the files, and either what it is read
as or its error. -/
theorem foldl_addDefinition (state : Compiling) (texts : List (String × String)) :
    texts.foldl Compiling.addDefinition state =
      { files := state.files ++ asSources texts
        definitions := state.definitions.insertAll (readable texts)
        errors := state.errors ++ failures state.files.length (texts.map Prod.snd) } := by
  induction texts generalizing state with
  | nil =>
      change state = ⟨state.files ++ [], state.definitions, state.errors ++ []⟩
      rw [List.append_nil, List.append_nil]
  | cons entry rest ih =>
      obtain ⟨name, text⟩ := entry
      have hFiles : (state.files ++ asSources [(name, text)]).length = state.files.length + 1 :=
        List.length_append
      have hSources : state.files ++ asSources [(name, text)] ++ asSources rest =
          state.files ++ asSources ((name, text) :: rest) := List.append_assoc ..
      rw [List.foldl_cons, List.map_cons]
      cases hRead : Schema.ofText text with
      | ok s =>
          rw [addDefinition_ok state name hRead, ih, hSources, hFiles, readable_cons_ok name hRead,
            failures_cons_ok hRead]
          rfl
      | error e =>
          rw [addDefinition_error state name hRead, ih, hSources, hFiles,
            readable_cons_error name hRead, failures_cons_error hRead, List.append_assoc]
          rfl

end

end Definitions

open Definitions

section

variable {files : List Source} {source : Nat} {description : String}
  {definitions : NameTable String} {texts : List (String × String)} {s : Schema}
  {first : SyntaxError} {others : List SyntaxError}

theorem exists_of_failures_nil (h : failures source (description :: texts.map Prod.snd) = []) :
    ∃ s, Schema.ofText description = .ok s :=
  failures_eq_nil_iff.mp h description List.mem_cons_self

/-- What compiling adds to the files, and what decides its result. -/
theorem compileAfter_eq (files : List Source) (description : String)
    (definitions : NameTable String) :
    compileAfter files description definitions =
      { files := files ++ ⟨"<type>", description⟩ :: asSources definitions.entries
        result :=
          match Schema.ofSource description files.length,
            failures files.length (description :: definitions.entries.map Prod.snd) with
          | .ok s, [] => .ok ⟨s, .ofPairs (readable definitions.entries)⟩
          | _, errors => .error errors } := by
  have hFiles : (files ++ [Source.mk "<type>" description]).length = files.length + 1 :=
    List.length_append
  have hSources : files ++ [⟨"<type>", description⟩] ++ asSources definitions.entries =
      files ++ ⟨"<type>", description⟩ :: asSources definitions.entries := List.append_assoc ..
  simp only [compileAfter, foldl_addDefinition]
  rw [hFiles, hSources]
  cases hMain : Schema.ofText description with
  | ok s =>
      rw [ofSource_ok _ hMain, failures_cons_ok hMain]
      rfl
  | error e =>
      rw [ofSource_error _ hMain, failures_cons_error hMain]
      rfl

theorem compileAfter_ok (files : List Source) (hMain : Schema.ofText description = .ok s)
    (h : failures files.length (description :: definitions.entries.map Prod.snd) = []) :
    (compileAfter files description definitions).result =
      .ok ⟨s, .ofPairs (readable definitions.entries)⟩ := by
  rw [compileAfter_eq, h, ofSource_ok _ hMain]

theorem compileAfter_error
    (h : failures files.length (description :: definitions.entries.map Prod.snd) =
      first :: others) :
    (compileAfter files description definitions).result = .error (first :: others) := by
  rw [compileAfter_eq, h]
  cases Schema.ofSource description files.length <;> rfl

theorem failures_nil_of_compileAfter {c : Compiled}
    (h : (compileAfter files description definitions).result = .ok c) :
    failures files.length (description :: definitions.entries.map Prod.snd) = [] := by
  cases hFailures : failures files.length (description :: definitions.entries.map Prod.snd) with
  | nil => rfl
  | cons first others =>
      rw [compileAfter_error hFailures] at h
      cases h

theorem failures_of_compileAfter_error {errors : List SyntaxError}
    (h : (compileAfter files description definitions).result = .error errors) :
    ∃ first others, errors = first :: others ∧
      failures files.length (description :: definitions.entries.map Prod.snd) =
        first :: others := by
  cases hFailures : failures files.length (description :: definitions.entries.map Prod.snd) with
  | nil =>
      obtain ⟨s, hMain⟩ := exists_of_failures_nil hFailures
      rw [compileAfter_ok _ hMain hFailures] at h
      cases h
  | cons first others =>
      rw [compileAfter_error hFailures] at h
      cases h
      exact ⟨first, others, rfl, rfl⟩

theorem readByText_ok (t : Tree) (hMain : Schema.ofText description = .ok s)
    (h : failures source (description :: texts.map Prod.snd) = []) :
    readByText description texts t = .ok (s.read (.ofPairs (readable texts)) t) := by
  rw [failures_cons_ok hMain] at h
  have hTexts : ofTexts texts = .ok (.ofPairs (readable texts)) := by
    change texts.mapM readEntry >>= _ = _
    rw [mapM_readEntry_ok h]
    rfl
  rw [readByText, hMain, hTexts]
  rfl

/-- The first of all errors is the one that stops at the first text that is wrong. -/
theorem readByText_error (t : Tree)
    (h : failures source (description :: texts.map Prod.snd) = first :: others) :
    ∃ index text e,
      ((none, description) :: texts.map (Prod.map some id))[index]? = some (e.name, text) ∧
        readByText description texts t = .error e ∧
        first = e.error.inSource (source + index) := by
  cases hMain : Schema.ofText description with
  | error e =>
      rw [failures_cons_error hMain] at h
      obtain ⟨rfl, -⟩ := List.cons.inj h
      refine ⟨0, description, ⟨none, e⟩, rfl, ?_, rfl⟩
      rw [readByText, hMain]
      rfl
  | ok s =>
      rw [failures_cons_ok hMain] at h
      obtain ⟨index, name, text, e, hEntry, hStop, rfl⟩ := mapM_readEntry_error h
      have hTexts : ofTexts texts = .error ⟨some name, e⟩ := by
        change texts.mapM readEntry >>= _ = _
        rw [hStop]
        rfl
      refine ⟨index + 1, text, ⟨some name, e⟩, ?_, ?_, by rw [Nat.add_right_comm, Nat.add_assoc]⟩
      · rw [List.getElem?_cons_succ, List.getElem?_map, hEntry]
        rfl
      · rw [readByText, hMain, hTexts]
        rfl

theorem failures_nil_of_readByText (source : Nat) {t : Tree} {o : Outcome}
    (h : readByText description texts t = .ok o) :
    failures source (description :: texts.map Prod.snd) = [] := by
  cases hFailures : failures source (description :: texts.map Prod.snd) with
  | nil => rfl
  | cons first others =>
      obtain ⟨index, text, e, -, hStop, -⟩ := readByText_error t hFailures
      rw [hStop] at h
      cases h

end

/-- The name of the source of a definition or, without a name, of the description. -/
def sourceName : Option String → String
  | none => "<type>"
  | some name => s!"<atom {name}>"

theorem sourceName_some (name : String) : sourceName (some name) = "<atom " ++ name ++ ">" := rfl

theorem sourceName_some_ne (name : String) : sourceName (some name) ≠ sourceName none := by
  rw [sourceName_some]
  intro h
  have hLetters := congrArg String.toList h
  rw [String.toList_append, String.toList_append] at hLetters
  have hSecond : 'a' = 't' := (List.cons.inj (List.cons.inj hLetters).2).1
  exact absurd hSecond (by decide)

/-- The name of a source tells what it is the source of. -/
theorem sourceName_inj {name? other? : Option String} :
    sourceName name? = sourceName other? ↔ name? = other? := by
  refine ⟨fun h => ?_, congrArg sourceName⟩
  match name?, other? with
  | none, none => rfl
  | none, some other => exact absurd h.symm (sourceName_some_ne other)
  | some name, none => exact absurd h (sourceName_some_ne name)
  | some name, some other =>
      rw [sourceName_some, sourceName_some, String.append_left_inj, String.append_right_inj] at h
      rw [h]

/-- The files are those from before, and then the description and the definitions. -/
theorem files_compileAfter (files : List Source) (description : String)
    (definitions : NameTable String) :
    (compileAfter files description definitions).files =
      files ++ ((none, description) :: definitions.entries.map (Prod.map some id)).map
        fun (name?, text) => ⟨sourceName name?, text⟩ := by
  rw [compileAfter_eq, List.map_cons, List.map_map]
  rfl

section

variable {files : List Source} {description : String} {definitions : NameTable String}
  {pairs : List (String × String)}

/-- What has been compiled is what definitions in any order are read as. -/
theorem readByText_of_compileAfter (t : Tree) {c : Compiled}
    (hPerm : pairs.Perm definitions.entries)
    (h : (compileAfter files description definitions).result = .ok c) :
    readByText description pairs t = .ok (c.schema.read c.definitions t) := by
  have hNone := failures_nil_of_compileAfter h
  obtain ⟨s, hMain⟩ := exists_of_failures_nil hNone
  rw [compileAfter_ok _ hMain hNone] at h
  cases h
  have hTexts := (hPerm.symm.map Prod.snd).cons description
  rw [readByText_ok t hMain (failures_nil_of_perm hTexts hNone),
    ofPairs_readable_eq_of_perm hPerm.symm definitions.names_nodup]

theorem exists_compileAfter_of_readByText (files : List Source) {t : Tree} {o : Outcome}
    (hPerm : pairs.Perm definitions.entries) (h : readByText description pairs t = .ok o) :
    ∃ c, (compileAfter files description definitions).result = .ok c := by
  have hTexts := (hPerm.map Prod.snd).cons description
  have hNone := failures_nil_of_perm hTexts (failures_nil_of_readByText files.length h)
  obtain ⟨s, hMain⟩ := exists_of_failures_nil hNone
  exact ⟨_, compileAfter_ok _ hMain hNone⟩

/-- What stops the other way is the first of all errors, and it is blamed on the source that
has the number of the error. -/
theorem readByText_of_compileAfter_error (t : Tree) {errors : List SyntaxError}
    (h : (compileAfter files description definitions).result = .error errors) :
    ∃ first others e text, errors = first :: others ∧
      readByText description definitions.entries t = .error e ∧
      first = e.error.inSource first.source ∧
      (compileAfter files description definitions).files[first.source]? =
        some ⟨sourceName e.name, text⟩ := by
  obtain ⟨first, others, rfl, hFailures⟩ := failures_of_compileAfter_error h
  obtain ⟨index, text, e, hEntry, hStop, rfl⟩ := readByText_error t hFailures
  refine ⟨_, others, e, text, rfl, hStop, rfl, ?_⟩
  change (compileAfter files description definitions).files[files.length + index]? = _
  rw [files_compileAfter, List.getElem?_append_right (Nat.le_add_right ..),
    Nat.add_sub_cancel_left, List.getElem?_map, hEntry]
  rfl

end

/-- The two ways to read a description and its definitions agree. They accept the same
texts, in whatever order the definitions are listed, and then mean the same by them; and
the first of all errors is the one that stops the other way at definitions in the order of
their names, where the error names the definition that is at fault, if any. There may be
other sources before those of the texts. -/
theorem readByText_agrees (files : List Source) (description : String)
    (definitions : NameTable String) (t : Tree) :
    let compilation := compileAfter files description definitions
    (∀ pairs, pairs.Perm definitions.entries →
      ((∃ c, compilation.result = .ok c) ↔ ∃ o, readByText description pairs t = .ok o) ∧
      ∀ c, compilation.result = .ok c →
        readByText description pairs t = .ok (c.schema.read c.definitions t)) ∧
    ∀ errors, compilation.result = .error errors →
      ∃ first others e source, errors = first :: others ∧
        readByText description definitions.entries t = .error e ∧
        first = e.error.inSource first.source ∧
        compilation.files[first.source]? = some source ∧
        (e.name = none ↔ source.name = "<type>") ∧
        ∀ name, e.name = some name ↔ source.name = s!"<atom {name}>" := by
  intro compilation
  refine ⟨fun pairs hPerm => ⟨⟨?_, ?_⟩, fun c => readByText_of_compileAfter t hPerm⟩,
    fun errors h => ?_⟩
  · rintro ⟨c, hCompile⟩
    exact ⟨_, readByText_of_compileAfter t hPerm hCompile⟩
  · rintro ⟨o, hRead⟩
    exact exists_compileAfter_of_readByText files hPerm hRead
  · obtain ⟨first, others, e, text, hFirst, hStop, hSame, hSource⟩ :=
      readByText_of_compileAfter_error t h
    exact ⟨first, others, e, _, hFirst, hStop, hSame, hSource, sourceName_inj.symm,
      fun name => sourceName_inj.symm⟩

/-- With definitions in the other order, and with one that is cut off, after the source of
a tree. -/
theorem readByText_agrees_reversed :
    (let listed := [("b", "<a.nil>"), ("a", "int")]
      let definitions := NameTable.ofPairs listed
      let b := Schema.pair (.named "a") (.named "nil")
      let c := Compiled.mk (.named "b") (.ofPairs [("a", .named "int"), ("b", b)])
      listed.Perm definitions.entries ∧ (compileAfter [] "b" definitions).result = .ok c ∧
        readByText "b" listed .nil = .ok (c.schema.read c.definitions .nil)) ∧
    let files : List Source := [⟨"<tree>", "nil"⟩]
    let definitions := NameTable.ofPairs [("b", "<"), ("a", "int")]
    let cutOff : SyntaxError :=
      { cause := .ended Description.Progress.atomStart, span := .empty 1, source := 3 }
    let compilation := compileAfter files "b" definitions
    compilation.result = .error [cutOff] ∧
      ∃ first others e source, [cutOff] = first :: others ∧
        readByText "b" definitions.entries .nil = .error e ∧
        first = e.error.inSource first.source ∧
        compilation.files[first.source]? = some source ∧
        (e.name = none ↔ source.name = "<type>") ∧
        ∀ name, e.name = some name ↔ source.name = s!"<atom {name}>" := by
  have hRead {s : Schema} (hWritable : s.Writable) (hFits : s.Fits 0) :
      Schema.ofText s.text = .ok s := (Schema.ofText_text_of_writable hWritable).1 hFits
  have hMain : Schema.ofText "b" = .ok (.named "b") :=
    hRead (s := .named "b") (by decide +kernel) ⟨trivial, trivial⟩
  have hInt : Schema.ofText "int" = .ok (.named "int") :=
    hRead (s := .named "int") (by decide +kernel) ⟨trivial, trivial⟩
  constructor
  · intro listed definitions b c
    have hPerm : listed.Perm definitions.entries := by decide
    have hPair : Schema.ofText "<a.nil>" = .ok b :=
      hRead (s := b) (by decide +kernel) ⟨by decide, ⟨trivial, trivial⟩, trivial, trivial⟩
    have hEntries : definitions.entries = [("a", "int"), ("b", "<a.nil>")] := by decide
    have hCompile : (compileAfter [] "b" definitions).result = .ok c := by
      rw [compileAfter_eq, hEntries, ofSource_ok _ hMain, List.map_cons, List.map_singleton,
        failures_cons_ok hMain, failures_cons_ok hInt, failures_cons_ok hPair,
        readable_cons_ok "a" hInt, readable_cons_ok "b" hPair]
      rfl
    exact ⟨hPerm, hCompile,
      ((readByText_agrees [] "b" definitions .nil).1 listed hPerm).2 c hCompile⟩
  · intro files definitions cutOff compilation
    have hTokens : tokens "<" = .ok (placed 0 [.symbol .treeOpen]) :=
      tokensFrom_written 0 [.symbol .treeOpen] ⟨trivial, not_false, trivial⟩
    have hCut : Schema.ofText "<" = .error (cutOff.inSource 0) := by
      rw [Schema.ofText, hTokens]
      rfl
    have hEntries : definitions.entries = [("a", "int"), ("b", "<")] := by decide
    have hCompile : compilation.result = .error [cutOff] := by
      apply compileAfter_error
      rw [hEntries, List.map_cons, List.map_singleton, failures_cons_ok hMain,
        failures_cons_ok hInt, failures_cons_error hCut]
      rfl
    exact ⟨hCompile, (readByText_agrees files "b" definitions .nil).2 [cutOff] hCompile⟩

end TreeSchema
