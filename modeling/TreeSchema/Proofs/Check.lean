import TreeSchema.Program
import TreeSchema.Proofs.Definitions.Blame
import TreeSchema.Proofs.Matching.Failure
import TreeSchema.Proofs.Tree.ErrorPlace

/-! How reading a tree by a description ends, as a command. There are five ways. In each of
them the exit code is one exactly if an error is reported, and every error about a text lies
in that text, so that it can be shown. The exit code is zero exactly if all that is needed
can be read, with the definitions that are in force, and the tree fits. -/
namespace TreeSchema

open CommandLine

/-! What is relied on when an error is shown. -/

/-- Whether something is shown of each error that lies in its source. -/
def Printer.Shows (print : Printer) : Prop :=
  ∀ source e, e.span.LiesIn source.text → print source e ≠ ""

namespace Complaint

variable {print : Printer} {c : Complaint}

end Complaint

namespace CommandLine.Arguments

end CommandLine.Arguments

namespace CommandLine.CheckRequest

/-! The definitions in force. -/

/-- The warnings about some definitions. -/
def warnings (table : NameTable String) : List Complaint :=
  (shadowed table).map .shadowed

/-- The source of an error among those that are compiled. -/
def sourceOf (request : CheckRequest) (table : NameTable String) (error : SyntaxError) : Source :=
  (sources request.type table)[error.source]?.getD ⟨"", ""⟩

/-- How a request can end, and what is left behind. -/
inductive Ends (load : Loader) (request : CheckRequest) : CheckRun → Prop where
  | notLoaded {error : LoadError} (stopped : request.definitions load = .error error) :
      Ends load request ⟨1, "", [.notLoaded error]⟩
  | notCompiled {table : NameTable String} {errors : List SyntaxError}
      (loaded : request.definitions load = .ok table)
      (stopped : compile request.type table = .error errors) :
      Ends load request ⟨1, "",
        warnings table ++ errors.map fun error => .malformed (request.sourceOf table error) error⟩
  | outlined {table : NameTable String} {compiled : Compiled}
      (loaded : request.definitions load = .ok table)
      (compiles : compile request.type table = .ok compiled)
      (asked : request.schemaOnly = true) :
      Ends load request ⟨0, compiled.schema.outlineText ++ "\n", warnings table⟩
  | notTree {table : NameTable String} {compiled : Compiled} {error : SyntaxError}
      (loaded : request.definitions load = .ok table)
      (compiles : compile request.type table = .ok compiled)
      (notAsked : request.schemaOnly = false)
      (stopped : Tree.ofText request.tree = .error error) :
      Ends load request ⟨1, "", warnings table ++ [.malformed ⟨"<tree>", request.tree⟩ error]⟩
  | read {table : NameTable String} {compiled : Compiled} {t : Tree} {outcome : Outcome}
      (loaded : request.definitions load = .ok table)
      (compiles : compile request.type table = .ok compiled)
      (notAsked : request.schemaOnly = false)
      (written : Tree.ofText request.tree = .ok t)
      (decoded : compiled.schema.read compiled.definitions t = outcome) :
      Ends load request ⟨if outcome.failed then 1 else 0,
        if request.quiet then "" else outcome.reading.text ++ "\n",
        warnings table ++ outcome.reading.errors.map .mismatch⟩

theorem run_of_notCompiled {load : Loader} {request : CheckRequest} {table : NameTable String}
    {errors : List SyntaxError} (hLoaded : request.definitions load = .ok table)
    (hStopped : compile request.type table = .error errors) :
    request.run load = ⟨1, "", warnings table ++
      errors.map fun error => .malformed (request.sourceOf table error) error⟩ := by
  rw [run, hLoaded]
  simp only [runWith, hStopped]
  rfl

theorem run_of_notTree {load : Loader} {request : CheckRequest} {table : NameTable String}
    {compiled : Compiled} {error : SyntaxError} (hLoaded : request.definitions load = .ok table)
    (hCompiles : compile request.type table = .ok compiled)
    (hNotAsked : request.schemaOnly = false) (hStopped : Tree.ofText request.tree = .error error) :
    request.run load =
      ⟨1, "", warnings table ++ [.malformed ⟨"<tree>", request.tree⟩ error]⟩ := by
  rw [run, hLoaded]
  simp only [runWith, hCompiles, hNotAsked, readTree, hStopped]
  rfl

theorem run_of_read {load : Loader} {request : CheckRequest} {table : NameTable String}
    {compiled : Compiled} {t : Tree} (hLoaded : request.definitions load = .ok table)
    (hCompiles : compile request.type table = .ok compiled)
    (hNotAsked : request.schemaOnly = false) (hWritten : Tree.ofText request.tree = .ok t) :
    let outcome := compiled.schema.read compiled.definitions t
    request.run load = ⟨if outcome.failed then 1 else 0,
      if request.quiet then "" else outcome.reading.text ++ "\n",
      warnings table ++ outcome.reading.errors.map .mismatch⟩ := by
  rw [run, hLoaded]
  simp only [runWith, hCompiles, hNotAsked, readTree, hWritten]
  rfl

theorem run_ends (load : Loader) (request : CheckRequest) :
    request.Ends load (request.run load) := by
  cases hLoaded : request.definitions load with
  | error error =>
      rw [run, hLoaded]
      exact .notLoaded hLoaded
  | ok table =>
      cases hCompiles : compile request.type table with
      | error errors =>
          rw [run_of_notCompiled hLoaded hCompiles]
          exact .notCompiled hLoaded hCompiles
      | ok compiled =>
          cases hAsked : request.schemaOnly with
          | true =>
              rw [run, hLoaded]
              simp only [runWith, hCompiles, hAsked, if_true, List.append_nil]
              exact .outlined hLoaded hCompiles hAsked
          | false =>
              cases hWritten : Tree.ofText request.tree with
              | error error =>
                  rw [run_of_notTree hLoaded hCompiles hAsked hWritten]
                  exact .notTree hLoaded hCompiles hAsked hWritten
              | ok t =>
                  rw [run_of_read hLoaded hCompiles hAsked hWritten]
                  exact .read hLoaded hCompiles hAsked hWritten rfl

theorem isError_of_mem_warnings {table : NameTable String} {c : Complaint}
    (h : c ∈ warnings table) : c.isError = false := by
  obtain ⟨name, -, rfl⟩ := List.mem_map.mp h
  rfl

/-- An error in what is compiled stands in the source that it is shown in. -/
theorem sourceOf_of_mem {request : CheckRequest} {table : NameTable String}
    {errors : List SyntaxError} (h : compile request.type table = .error errors) {e : SyntaxError}
    (hMember : e ∈ errors) :
    (sources request.type table)[e.source]? = some (request.sourceOf table e) ∧
      e.span.LiesIn (request.sourceOf table e).text := by
  obtain ⟨source, hSource, hPlaced⟩ := exists_source_of_mem_errors h hMember
  rw [sourceOf, hSource]
  exact ⟨rfl, hPlaced.liesIn⟩

namespace Ends

variable {load : Loader} {request : CheckRequest} {run : CheckRun}

/-- An error in a text is one in a description, or the one in the tree. -/
theorem malformed_cases (h : request.Ends load run) {source : Source} {e : SyntaxError}
    (hMember : .malformed source e ∈ run.complaints) :
    (∃ table errors, request.definitions load = .ok table ∧
      compile request.type table = .error errors ∧ e ∈ errors ∧
      source = request.sourceOf table e) ∨
    source = ⟨"<tree>", request.tree⟩ ∧ Tree.ofText request.tree = .error e := by
  have hNoWarning {table : NameTable String} : .malformed source e ∉ warnings table := by
    intro hWarning
    cases isError_of_mem_warnings hWarning
  cases h with
  | notLoaded stopped => cases List.mem_singleton.mp hMember
  | notCompiled loaded stopped =>
      obtain ⟨e', hError, hSame⟩ :=
        List.mem_map.mp ((List.mem_append.mp hMember).resolve_left hNoWarning)
      cases hSame
      exact .inl ⟨_, _, loaded, stopped, hError, rfl⟩
  | outlined loaded compiles asked => exact absurd hMember hNoWarning
  | notTree loaded compiles notAsked stopped =>
      cases List.mem_singleton.mp ((List.mem_append.mp hMember).resolve_left hNoWarning)
      exact .inr ⟨rfl, stopped⟩
  | read loaded compiles notAsked written decoded =>
      obtain ⟨e', -, hSame⟩ :=
        List.mem_map.mp ((List.mem_append.mp hMember).resolve_left hNoWarning)
      cases hSame

/-- Whether nothing stops a request before its tree is looked at. -/
theorem exitCode_eq_zero_iff (h : request.Ends load run) :
    run.exitCode = 0 ↔ ∃ table compiled, request.definitions load = .ok table ∧
      compile request.type table = .ok compiled ∧
      (request.schemaOnly = true ∨ ∃ t, Tree.ofText request.tree = .ok t ∧
        (compiled.schema.read compiled.definitions t).failed = false) := by
  constructor
  · intro hZero
    cases h with
    | notLoaded stopped => cases hZero
    | notCompiled loaded stopped => cases hZero
    | outlined loaded compiles asked => exact ⟨_, _, loaded, compiles, .inl asked⟩
    | notTree loaded compiles notAsked stopped => cases hZero
    | read loaded compiles notAsked written decoded =>
        refine ⟨_, _, loaded, compiles, .inr ⟨_, written, ?_⟩⟩
        rw [decoded]
        change (if _ then 1 else 0) = 0 at hZero
        simpa using hZero
  · rintro ⟨table, compiled, hLoaded, hCompiles, hTree⟩
    cases h with
    | notLoaded stopped => cases hLoaded.symm.trans stopped
    | notCompiled loaded stopped =>
        cases hLoaded.symm.trans loaded
        cases hCompiles.symm.trans stopped
    | outlined loaded compiles asked => rfl
    | notTree loaded compiles notAsked stopped =>
        rcases hTree with hAsked | ⟨t, hWritten, -⟩
        · cases hAsked.symm.trans notAsked
        · cases hWritten.symm.trans stopped
    | read loaded compiles notAsked written decoded =>
        cases hLoaded.symm.trans loaded
        cases hCompiles.symm.trans compiles
        rcases hTree with hAsked | ⟨t, hWritten, hFits⟩
        · cases hAsked.symm.trans notAsked
        · cases hWritten.symm.trans written
          rw [← decoded, hFits]
          rfl

theorem exitCode_eq_or (h : request.Ends load run) : run.exitCode = 0 ∨ run.exitCode = 1 := by
  cases h with
  | read loaded compiles notAsked written decoded =>
      change (if _ then 1 else 0) = 0 ∨ (if _ then 1 else 0) = 1
      split
      · exact .inr rfl
      · exact .inl rfl
  | outlined loaded compiles asked => exact .inl rfl
  | _ => exact .inr rfl

end Ends

end CommandLine.CheckRequest

end TreeSchema
