import TreeSchema.Proofs.Definitions.Compiling
import TreeSchema.Proofs.Schema.ErrorPlace

/-! What compiling reports. If all texts can be read, it returns what each of them is read
as. Otherwise it returns the errors of those that cannot: one for each, in the order of the
sources, with the number of its source, and placed in the text of that source. -/
namespace TreeSchema

namespace Definitions

variable {first : Nat} {texts : List String} {e : SyntaxError}

/-- The errors of texts are those of each text by itself, with the number of the text. -/
theorem mem_failures_iff :
    e ∈ failures first texts ↔ ∃ i text error, texts[i]? = some text ∧
      Schema.ofText text = .error error ∧ e = error.inSource (first + i) := by
  induction texts generalizing first with
  | nil => simp [failures]
  | cons text texts ih =>
      have hRest : (∃ i text' error, (text :: texts)[i + 1]? = some text' ∧
          Schema.ofText text' = .error error ∧ e = error.inSource (first + (i + 1))) ↔
            e ∈ failures (first + 1) texts := by
        simp only [ih, List.getElem?_cons_succ, Nat.add_assoc, Nat.add_comm 1]
      rw [← Nat.or_exists_add_one, hRest]
      cases hRead : Schema.ofText text with
      | ok s => simp [failures_cons_ok hRead, hRead]
      | error error => simp [failures_cons_error hRead, hRead]

theorem first_le_source_of_mem (h : e ∈ failures first texts) : first ≤ e.source := by
  obtain ⟨i, text, error, -, -, rfl⟩ := mem_failures_iff.mp h
  exact Nat.le_add_right first i

/-- No text is blamed twice, and earlier ones are blamed before later ones. -/
theorem failures_increasing (first : Nat) (texts : List String) :
    (failures first texts).Pairwise fun e e' => e.source < e'.source := by
  induction texts generalizing first with
  | nil => exact .nil
  | cons text texts ih =>
      cases hRead : Schema.ofText text with
      | ok s =>
          rw [failures_cons_ok hRead]
          exact ih (first + 1)
      | error error =>
          rw [failures_cons_error hRead]
          exact .cons (fun e hMember => first_le_source_of_mem hMember) (ih (first + 1))

theorem mem_readable_iff {texts : List (String × String)} {name : String} {s : Schema} :
    (name, s) ∈ readable texts ↔
      ∃ text, (name, text) ∈ texts ∧ Schema.ofText text = .ok s := by
  simp only [readable, List.mem_filterMap, Prod.exists, Option.map_eq_some_iff,
    toOption_eq_some_iff, Prod.mk.injEq]
  constructor
  · rintro ⟨name', text, hMember, s', hText, rfl, rfl⟩
    exact ⟨text, hMember, hText⟩
  · rintro ⟨text, hMember, hText⟩
    exact ⟨name, text, hMember, s, hText, rfl, rfl⟩

/-- What stands under a name in the table of all that can be read. -/
theorem get?_readable (table : NameTable String) (name : String) :
    (NameTable.ofPairs (readable table.entries)).get? name =
      (table.get? name).bind fun text => (Schema.ofText text).toOption := by
  have hDistinct : ((readable table.entries).map Prod.fst).Nodup :=
    (names_readable_sublist table.entries).nodup table.names_nodup
  ext s
  rw [← NameTable.mem_entries_iff, (NameTable.entries_ofPairs_perm hDistinct).mem_iff,
    mem_readable_iff, Option.bind_eq_some_iff]
  simp only [NameTable.mem_entries_iff, toOption_eq_some_iff]

end Definitions

open Definitions

section

variable {description : String} {definitions : NameTable String}

theorem map_text_sources (description : String) (definitions : NameTable String) :
    (sources description definitions).map Source.text =
      description :: definitions.entries.map Prod.snd := by
  rw [sources, files_compileAfter, List.nil_append, List.map_map, List.map_cons, List.map_map]
  rfl

/-- Compiling succeeds exactly with what the texts are read as, each by itself. -/
theorem compile_eq_ok_iff {c : Compiled} :
    compile description definitions = .ok c ↔
      Schema.ofText description = .ok c.schema ∧
        ∀ name, (definitions.get? name).map Schema.ofText = (c.definitions.get? name).map .ok := by
  constructor
  · intro h
    have hNone := failures_nil_of_compileAfter h
    obtain ⟨s, hMain⟩ := exists_of_failures_nil hNone
    rw [compile, compileAfter_ok _ hMain hNone] at h
    cases h
    refine ⟨hMain, fun name => ?_⟩
    rw [get?_readable]
    cases hFound : definitions.get? name with
    | none => rfl
    | some text =>
        have hMember := List.mem_map_of_mem (f := Prod.snd) (NameTable.mem_entries_iff.mpr hFound)
        obtain ⟨s', hText⟩ := failures_eq_nil_iff.mp hNone text (List.mem_cons_of_mem _ hMember)
        simp [hText, Except.toOption]
  · rintro ⟨hMain, hTexts⟩
    have hNone : failures 0 (description :: definitions.entries.map Prod.snd) = [] := by
      rw [failures_eq_nil_iff, List.forall_mem_cons, List.forall_mem_map]
      refine ⟨⟨c.schema, hMain⟩, fun entry hMember => ?_⟩
      have hText := hTexts entry.1
      rw [NameTable.mem_entries_iff.mp hMember] at hText
      obtain ⟨s, -, hSchema⟩ := Option.map_eq_some_iff.mp hText.symm
      exact ⟨s, hSchema.symm⟩
    have hSame : NameTable.ofPairs (readable definitions.entries) = c.definitions := by
      apply NameTable.ext_get?
      intro name
      have hText := hTexts name
      rw [get?_readable]
      cases hFound : definitions.get? name with
      | none =>
          rw [hFound] at hText
          exact (Option.map_eq_none_iff.mp hText.symm).symm
      | some text =>
          rw [hFound] at hText
          obtain ⟨s, hKept, hSchema⟩ := Option.map_eq_some_iff.mp hText.symm
          rw [hKept, Option.bind_some, ← hSchema]
          rfl
    rw [compile, compileAfter_ok [] hMain hNone, hSame]

theorem compile_empty {s : Schema} (h : Schema.ofText description = .ok s) :
    compile description .empty = .ok ⟨s, .empty⟩ :=
  compile_eq_ok_iff.mpr ⟨h, fun _ => rfl⟩

/-- The errors are those of the sources, each with the number of its source. -/
theorem mem_errors_of_compile {errors : List SyntaxError}
    (h : compile description definitions = .error errors) {e : SyntaxError} :
    e ∈ errors ↔ ∃ i source error, (sources description definitions)[i]? = some source ∧
      Schema.ofText source.text = .error error ∧ e = error.inSource i := by
  obtain ⟨first, others, rfl, hFailures⟩ := failures_of_compileAfter_error h
  rw [← hFailures, mem_failures_iff, ← map_text_sources]
  simp only [List.getElem?_map, Option.map_eq_some_iff, List.length_nil, Nat.zero_add]
  constructor
  · rintro ⟨i, text, error, ⟨source, hSource, rfl⟩, hText, hError⟩
    exact ⟨i, source, error, hSource, hText, hError⟩
  · rintro ⟨i, source, error, hSource, hText, hError⟩
    exact ⟨i, source.text, error, ⟨source, hSource, rfl⟩, hText, hError⟩

theorem increasing_of_compile {errors : List SyntaxError}
    (h : compile description definitions = .error errors) :
    errors.Pairwise fun e e' => e.source < e'.source := by
  obtain ⟨first, others, rfl, hFailures⟩ := failures_of_compileAfter_error h
  rw [← hFailures]
  exact failures_increasing 0 _

/-- An error is placed in the text of the source that has its number. -/
theorem exists_source_of_mem_errors {errors : List SyntaxError}
    (h : compile description definitions = .error errors) {e : SyntaxError} (hMember : e ∈ errors) :
    ∃ source, (sources description definitions)[e.source]? = some source ∧
      e.IsPlacedIn source.text := by
  obtain ⟨i, source, error, hSource, hText, rfl⟩ := (mem_errors_of_compile h).mp hMember
  exact ⟨source, hSource, (isPlacedIn_of_ofText hText).inSource i⟩

end

/-- Compiling a description and its definitions, which are the sources in the order of their
numbers. It succeeds exactly if each source can be read, with what it is read as. Otherwise
each source that cannot be read is reported once, in the order of the sources, by its own
error with the number of the source. The error is placed in the text of that source: at the
character that it names, at a token or at the end of the last token. -/
theorem compile_reports_each (description : String) (definitions : NameTable String) :
    let files := sources description definitions
    (files[0]? = some ⟨"<type>", description⟩ ∧
      ∀ i, files[i + 1]? =
        definitions.entries[i]?.map fun (name, text) => ⟨s!"<atom {name}>", text⟩) ∧
    match compile description definitions with
    | .ok c =>
        (∀ source ∈ files, ∃ s, Schema.ofText source.text = .ok s) ∧
        Schema.ofText description = .ok c.schema ∧
        ∀ name, (definitions.get? name).map Schema.ofText = (c.definitions.get? name).map .ok
    | .error errors =>
        (∃ source ∈ files, ∃ e, Schema.ofText source.text = .error e) ∧
        errors.Pairwise (fun e e' => e.source < e'.source) ∧
        (∀ e, e ∈ errors ↔ ∃ i source error, files[i]? = some source ∧
          Schema.ofText source.text = .error error ∧ e = error.inSource i) ∧
        ∀ e ∈ errors, ∃ source, files[e.source]? = some source ∧ e.span.LiesIn source.text ∧
          e.IsPlacedIn source.text := by
  refine ⟨⟨?_, fun i => ?_⟩, ?_⟩
  · rw [sources, files_compileAfter]
    rfl
  · rw [sources, files_compileAfter, List.nil_append, List.map_cons, List.getElem?_cons_succ,
      List.map_map, List.getElem?_map]
    rfl
  · split
    · next c hCompile =>
        refine ⟨?_, compile_eq_ok_iff.mp hCompile⟩
        have hNone := failures_nil_of_compileAfter hCompile
        rw [← map_text_sources, failures_eq_nil_iff, List.forall_mem_map] at hNone
        exact hNone
    · next errors hCompile =>
        refine ⟨?_, increasing_of_compile hCompile, fun e => mem_errors_of_compile hCompile,
          fun e hMember => ?_⟩
        · obtain ⟨first, others, rfl, -⟩ := failures_of_compileAfter_error hCompile
          obtain ⟨i, source, error, hSource, hText, -⟩ :=
            (mem_errors_of_compile hCompile).mp List.mem_cons_self
          exact ⟨source, List.mem_of_getElem? hSource, error, hText⟩
        · obtain ⟨source, hSource, hPlaced⟩ := exists_source_of_mem_errors hCompile hMember
          exact ⟨source, hSource, hPlaced.liesIn, hPlaced⟩

end TreeSchema
