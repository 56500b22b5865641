import TreeSchema.Proofs.Case.Verdict
import TreeSchema.Proofs.Check
import TreeSchema.Proofs.Reading.Text

/-! Judging a case agrees with reading its tree as a command: with the same texts, a case
holds exactly if the command ends as the case expects. -/
namespace TreeSchema

open CommandLine

/-- Whether two texts differ at most in the blanks around them. -/
def Text.SameBetweenBlanks (a b : String) : Prop :=
  ∃ core, Text.Wraps Text.isBlank core a.toList ∧ Text.Wraps Text.isBlank core b.toList

namespace Case

variable {c : Case}

theorem metBy_iff_of_flag {type tree : String} {definitions : NameTable String}
    {flag : Option Bool} {outcome : Outcome} :
    ({ type, tree, definitions, expectError := flag } : Case).MetBy outcome ↔
      outcome.failed = flag.getD false := by
  constructor
  · intro hMet
    cases flag with
    | none => exact hMet.fits rfl rfl
    | some expected => exact hMet.flag expected rfl
  · intro hFailed
    refine ⟨?_, ?_, ?_, List.forall_mem_nil _⟩
    · rintro expected ⟨⟩
    · rintro expected ⟨⟩
      exact hFailed
    · rintro ⟨⟩ -
      exact hFailed

/-- A case that expects nothing but that the tree fits, or that it does not. -/
theorem holds_iff_of_flag {type tree : String} {definitions : NameTable String}
    {flag : Option Bool} :
    ({ type, tree, definitions, expectError := flag } : Case).Holds ↔
      ∃ compiled t, compile type definitions = .ok compiled ∧ Tree.ofText tree = .ok t ∧
        (compiled.schema.read compiled.definitions t).failed = flag.getD false := by
  rw [holds_iff rfl]
  apply exists₂_congr
  intro compiled t
  exact and_congr_right fun _ => and_congr_right fun _ => metBy_iff_of_flag

/-- An output that is expected is not looked at unless there is a reading. -/
theorem verdict_withOutput (hSyntax : c.expectSyntaxError = false) (hNone : c.expectOutput = none)
    {expected : String}
    (hReading : ∀ compiled t, compile c.type c.definitions = .ok compiled →
      Tree.ofText c.tree = .ok t →
      (compiled.schema.read compiled.definitions t).reading.text = Text.trimmed expected) :
    { c with expectOutput := some expected }.verdict = c.verdict := by
  cases hCompiles : compile c.type c.definitions with
  | error errors => simp only [verdict, hSyntax, hCompiles]
  | ok compiled =>
      cases hWritten : Tree.ofText c.tree with
      | error error =>
          simp only [verdict, hSyntax, hCompiles, hWritten]
          rfl
      | ok t =>
          have hOutput : { c with expectOutput := some expected }.checkOutput
              (compiled.schema.read compiled.definitions t).reading =
              c.checkOutput (compiled.schema.read compiled.definitions t).reading := by
            simp only [checkOutput, hNone, Option.map_some, Option.map_none,
              hReading compiled t hCompiles hWritten, if_true]
          rw [verdict_of_read hSyntax hCompiles hWritten]
          refine (verdict_of_read (c := { c with expectOutput := some expected }) hSyntax hCompiles
            hWritten).trans ?_
          rw [hOutput]
          rfl

end Case

namespace Text

theorem SameBetweenBlanks.trimmed_eq {a b : String} (h : SameBetweenBlanks a b) :
    trimmed a = trimmed b := by
  obtain ⟨core, hWraps, hWraps'⟩ := h
  rw [trimmed, trim, trimmed, trim, hWraps.trimBy_eq, hWraps'.trimBy_eq]

end Text

namespace CommandLine.CheckRequest

/-- No description is called like the tree. -/
theorem notMem_sources (tree description : String) (definitions : NameTable String) :
    ⟨"<tree>", tree⟩ ∉ sources description definitions := by
  intro hMember
  rw [sources, files_compileAfter, List.nil_append, List.map_cons, List.map_map] at hMember
  rcases List.mem_cons.mp hMember with hSame | hMember
  · have hName : "<tree>" = "<type>" := congrArg Source.name hSame
    exact absurd hName (by decide)
  · obtain ⟨⟨name, text⟩, -, hSame⟩ := List.mem_map.mp hMember
    have hName : ("<atom " ++ name ++ ">").toList = "<tree>".toList :=
      congrArg (·.name.toList) hSame
    rw [String.toList_append, String.toList_append, List.append_assoc] at hName
    exact absurd (List.cons.inj (List.cons.inj hName).2).1 (by decide)

/-- A description is reported exactly if one cannot be compiled. -/
theorem exists_malformed_iff {load : Loader} {request : CheckRequest} {table : NameTable String}
    (hLoaded : request.definitions load = .ok table) :
    (∃ source ∈ sources request.type table, ∃ e,
        .malformed source e ∈ (request.run load).complaints) ↔
      ∃ errors, compile request.type table = .error errors := by
  constructor
  · rintro ⟨source, hSource, e, hMember⟩
    rcases (run_ends load request).malformed_cases hMember with
      ⟨table', errors, hLoaded', hErrors, -⟩ | ⟨rfl, -⟩
    · cases hLoaded.symm.trans hLoaded'
      exact ⟨errors, hErrors⟩
    · exact absurd hSource (notMem_sources _ _ _)
  · rintro ⟨errors, hErrors⟩
    obtain ⟨first, others, rfl, -⟩ := failures_of_compileAfter_error hErrors
    have hFirst := (sourceOf_of_mem hErrors List.mem_cons_self).1
    rw [run_of_notCompiled hLoaded hErrors]
    exact ⟨_, List.mem_of_getElem? hFirst, first,
      List.mem_append_right _ (List.mem_map_of_mem List.mem_cons_self)⟩

theorem exitCode_eq_zero_iff {load : Loader} {request : CheckRequest} {table : NameTable String}
    (hLoaded : request.definitions load = .ok table) (hNotAsked : request.schemaOnly = false) :
    (request.run load).exitCode = 0 ↔
      ∃ compiled t, compile request.type table = .ok compiled ∧
        Tree.ofText request.tree = .ok t ∧
        (compiled.schema.read compiled.definitions t).failed = false := by
  rw [(run_ends load request).exitCode_eq_zero_iff, hLoaded, hNotAsked]
  constructor
  · rintro ⟨table, compiled, ⟨⟩, hCompiles, hAsked | ⟨t, hWritten, hFits⟩⟩
    · cases hAsked
    · exact ⟨compiled, t, hCompiles, hWritten, hFits⟩
  · rintro ⟨compiled, t, hCompiles, hWritten, hFits⟩
    exact ⟨table, compiled, rfl, hCompiles, .inr ⟨t, hWritten, hFits⟩⟩

end CommandLine.CheckRequest

/-- A case, and a command with the same texts and definitions. A case that expects nothing in
particular, or that the tree fits, holds exactly if the command ends with zero. One that
expects that the tree does not fit holds exactly if everything can be read and the command
ends with one on account of mismatches. One that expects errors in the descriptions holds
exactly if the command reports such errors, whatever else it expects. And where a case does
not expect that, it makes no difference whether it also expects what the command puts out, up
to blanks around it. -/
theorem Case.holds_iff_check {load : Loader} {request : CheckRequest}
    {definitions : NameTable String} (hLoaded : request.definitions load = .ok definitions)
    (hNotAsked : request.schemaOnly = false) (hLoud : request.quiet = false) :
    let run := request.run load
    let plain : Case := { type := request.type, tree := request.tree, definitions }
    (plain.Holds ↔ run.exitCode = 0) ∧
    ({ plain with expectError := some true }.Holds ↔
      (∃ compiled, compile request.type definitions = .ok compiled) ∧
      (∃ t, Tree.ofText request.tree = .ok t) ∧
      run.exitCode = 1 ∧ ∃ e, .mismatch e ∈ run.complaints) ∧
    ({ plain with expectError := some false }.Holds ↔ run.exitCode = 0) ∧
    ∀ c : Case, c.type = request.type → c.tree = request.tree → c.definitions = definitions →
      (c.expectSyntaxError = true →
        (c.Holds ↔ run.exitCode = 1 ∧
          ∃ source ∈ sources request.type definitions, ∃ e,
            .malformed source e ∈ run.complaints)) ∧
      (c.expectSyntaxError = false → c.expectOutput = none →
        ∀ expected, Text.SameBetweenBlanks expected run.output →
          { c with expectOutput := some expected }.verdict = c.verdict) := by
  have hZero := CheckRequest.exitCode_eq_zero_iff hLoaded hNotAsked
  refine ⟨holds_iff_of_flag.trans hZero.symm, ?_, holds_iff_of_flag.trans hZero.symm, ?_⟩
  · refine holds_iff_of_flag.trans ⟨?_, ?_⟩
    · rintro ⟨compiled, t, hCompiles, hWritten, hFailed⟩
      obtain ⟨e, hMember⟩ :=
        (compiled.schema.faithful_read compiled.definitions t).exists_error hFailed
      rw [CheckRequest.run_of_read hLoaded hCompiles hNotAsked hWritten]
      exact ⟨⟨compiled, hCompiles⟩, ⟨t, hWritten⟩, if_pos hFailed, e,
        List.mem_append_right _ (List.mem_map_of_mem hMember)⟩
    · rintro ⟨⟨compiled, hCompiles⟩, ⟨t, hWritten⟩, hOne, -⟩
      refine ⟨compiled, t, hCompiles, hWritten, ?_⟩
      rw [CheckRequest.run_of_read hLoaded hCompiles hNotAsked hWritten] at hOne
      change (if _ then 1 else 0) = 1 at hOne
      simpa using hOne
  · rintro c hType hTree rfl
    refine ⟨fun hSyntax => ?_, fun hSyntax hNone expected hSame => ?_⟩
    · rw [holds_iff_of_expectSyntaxError hSyntax, CheckRequest.exists_malformed_iff hLoaded, hType]
      refine ⟨fun hStopped => ⟨?_, hStopped⟩, And.right⟩
      obtain ⟨errors, hErrors⟩ := hStopped
      rw [CheckRequest.run_of_notCompiled hLoaded hErrors]
    · refine verdict_withOutput hSyntax hNone fun compiled t hCompiles hWritten => ?_
      rw [hType] at hCompiles
      rw [hTree] at hWritten
      rw [hSame.trimmed_eq, CheckRequest.run_of_read hLoaded hCompiles hNotAsked hWritten, hLoud]
      exact (Reading.trimmed_line _).symm

theorem Case.holds_iff_check_number :
    let load : Loader := loadDefinitions fun _ => .error .missing
    let request : CheckRequest := { tree := "<nil.nil>", type := "int" }
    let c : Case := { type := "int", tree := "<nil.nil>" }
    request.run load = ⟨0, "1\n", []⟩ ∧ c.Holds ∧
      { c with expectOutput := some "\t1" }.verdict = c.verdict := by
  intro load request c
  have hCompiles : compile "int" .empty = .ok ⟨.named "int", .empty⟩ :=
    compile_empty (by decide +kernel)
  have hName : BuiltIn.ofName? "int" = some .int := rfl
  have hRead : (Schema.named "int").read .empty (.node .nil .nil) =
      .fits (.ofValue (.number 1)) :=
    Schema.decode_builtIn _ hName
  have hWritten : Tree.ofText "<nil.nil>" = .ok (.node .nil .nil) := by decide
  have hLoaded : request.definitions load = .ok .empty := rfl
  have hRun : request.run load = ⟨0, "1\n", []⟩ := by
    have hEnd := CheckRequest.run_of_read hLoaded hCompiles rfl hWritten
    rw [hRead] at hEnd
    exact hEnd
  have hSame : Text.SameBetweenBlanks "\t1" "1\n" :=
    ⟨['1'], ⟨['\t'], [], List.forall_mem_singleton.mpr rfl, List.forall_mem_nil _, rfl⟩,
      ⟨[], ['\n'], List.forall_mem_nil _, List.forall_mem_singleton.mpr rfl, rfl⟩⟩
  obtain ⟨hPlain, -, -, hOthers⟩ :=
    @Case.holds_iff_check load request c.definitions hLoaded rfl rfl
  rw [hRun] at hPlain hOthers
  exact ⟨hRun, hPlain.mpr rfl, (hOthers c rfl rfl rfl).2 rfl rfl _ hSame⟩

end TreeSchema
