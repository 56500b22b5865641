import TreeSchema.Program
import TreeSchema.Proofs.Case.Category
import TreeSchema.Proofs.Case.Verdict
import TreeSchema.Proofs.Definitions.Blame
import TreeSchema.Proofs.Matching.Recursion

/-! Runs of the cases in a directory. The case files that are requested are run, once each: a
file is good if it can be read as a case and all is as the case demands. The exit code and the
counts at the end are those of the results. -/
namespace TreeSchema

open CommandLine

/-- A case file is good exactly if it can be read as a case and the case is met. -/
theorem CaseFile.verdict_run_eq_ok_iff {read : CaseReader} {file : CaseFile} :
    (file.run read).verdict = .ok () ↔
      ∃ text c, file.entry.text = .ok text ∧ read text = .ok c ∧ c.IsMet := by
  rw [CaseFile.run]
  split
  · next fault hText =>
      rw [hText]
      constructor
      · intro hOk
        cases hOk
      · rintro ⟨text, c, hOther, -⟩
        cases hOther
  · next text hText =>
      split
      · next fault hCase =>
          constructor
          · intro hOk
            cases hOk
          · rintro ⟨text', c, hSame, hOther, -⟩
            cases hText.symm.trans hSame
            cases hCase.symm.trans hOther
      · next c hCase =>
          rw [show c.verdict = .ok () ↔ c.IsMet from Case.holds_iff_isMet]
          constructor
          · exact fun hMet => ⟨text, c, hText, hCase, hMet⟩
          · rintro ⟨text', c', hSame, hCase', hMet⟩
            cases hText.symm.trans hSame
            cases hCase.symm.trans hCase'
            exact hMet

theorem CaseFile.file_run (read : CaseReader) (file : CaseFile) : (file.run read).file = file := by
  rw [CaseFile.run]
  split
  · rfl
  · split <;> rfl

namespace SuiteRun

variable {read : CaseReader} {suite : Suite} {requests : List String}

theorem results_ofSuite (read : CaseReader) (suite : Suite) (requests : List String) :
    (ofSuite read suite requests).results =
      (suite.select requests).suite.files.map (CaseFile.run read) := by
  rw [ofSuite]
  split
  · next hNone =>
      rw [List.isEmpty_iff] at hNone
      have hSelected := suite.select_sublist requests
      rw [hNone, List.sublist_nil] at hSelected
      rw [Suite.files, hSelected]
      rfl
  · dsimp only
    split
    · next hNone =>
        rw [List.isEmpty_iff] at hNone
        rw [Suite.files, hNone]
        rfl
    · rw [results, List.flatMap_map, Suite.files, List.map_flatMap]

/-- Where categories are run and none is empty, there are results. -/
theorem results_ne_nil_of_ran
    (hSome : ∀ category files, (category, files) ∈ suite.entries → files ≠ [])
    {available unmatched : List String} {sections : List CaseSection}
    (h : ofSuite read suite requests = ran available unmatched sections) :
    (ofSuite read suite requests).results ≠ [] := by
  have hSelected : (suite.select requests).suite.entries ≠ [] := by
    intro hNone
    simp only [ofSuite, hNone] at h
    split at h
    · cases h
    · cases h
  obtain ⟨⟨category, files⟩, hMember⟩ := List.exists_mem_of_ne_nil _ hSelected
  obtain ⟨file, hFile⟩ := List.exists_mem_of_ne_nil _
    (hSome category files ((suite.select_sublist requests).subset hMember))
  rw [results_ofSuite]
  exact List.ne_nil_of_mem
    (List.mem_map_of_mem (List.mem_flatMap.mpr ⟨(category, files), hMember, hFile⟩))

theorem failures_eq_nil_iff (run : SuiteRun) :
    run.failures = [] ↔ ∀ result ∈ run.results, result.verdict = .ok () := by
  rw [failures, List.filterMap_eq_nil_iff]
  refine forall₂_congr fun result _ => ?_
  cases result.verdict with
  | ok holds => exact ⟨fun _ => rfl, fun _ => rfl⟩
  | error failure =>
      constructor
      · intro hNone
        cases hNone
      · intro hHolds
        cases hHolds

theorem exitCode_eq_or (run : SuiteRun) : run.exitCode = 0 ∨ run.exitCode = 1 := by
  rw [exitCode.eq_def]
  split
  · exact .inr rfl
  · exact .inr rfl
  · exact ite_eq_or_eq ..
  · exact ite_eq_or_eq ..

/-- The exit code is zero exactly if something is run and all of it is good. -/
theorem exitCode_eq_zero_iff {run : SuiteRun}
    (hSome : ∀ available unmatched sections,
      run = ran available unmatched sections → run.results ≠ []) :
    run.exitCode = 0 ↔ run.results ≠ [] ∧ ∀ result ∈ run.results, result.verdict = .ok () := by
  have hSummary : (if run.failures.length = 0 then 0 else 1) = 0 ↔ run.failures = [] := by
    rw [← List.length_eq_zero_iff]
    split <;> simp [*]
  rw [← failures_eq_nil_iff]
  cases run with
  | noFiles =>
      constructor
      · intro hZero
        cases hZero
      · rintro ⟨hNone, -⟩
        exact absurd rfl hNone
  | noMatch available unmatched =>
      constructor
      · intro hZero
        cases hZero
      · rintro ⟨hNone, -⟩
        exact absurd rfl hNone
  | single result => exact hSummary.trans (and_iff_right (List.cons_ne_nil _ _)).symm
  | ran available unmatched sections =>
      exact hSummary.trans (and_iff_right (hSome available unmatched sections rfl)).symm

/-- The line at the end of a report. -/
def tally (style : Style) (passed failed : Nat) : String :=
  if failed = 0 then
    let mark := style.paint .good "ok"
    s!"test result: {mark}. {passed} passed, 0 failed"
  else
    let mark := style.paint .bad "FAILED"
    s!"test result: {mark}. {passed} passed, {failed} failed (of {passed + failed})"

/-- How many results are good. -/
def passed (run : SuiteRun) : Nat :=
  run.results.countP (·.verdict.isOk)

/-- How many results are bad. -/
def failed (run : SuiteRun) : Nat :=
  run.results.countP (!·.verdict.isOk)

theorem passed_add_failed (run : SuiteRun) : run.passed + run.failed = run.results.length := by
  rw [passed, failed, List.length_eq_countP_add_countP (·.verdict.isOk)]
  simp

theorem isOk_iff (verdict : Except CaseFailure Unit) : verdict.isOk = true ↔ verdict = .ok () := by
  cases verdict with
  | ok holds => exact ⟨fun _ => rfl, fun _ => rfl⟩
  | error failure => exact ⟨nofun, nofun⟩

theorem passed_eq_length_iff (run : SuiteRun) :
    run.passed = run.results.length ↔ ∀ result ∈ run.results, result.verdict = .ok () := by
  simp only [passed, List.countP_eq_length, isOk_iff]

theorem length_failures (run : SuiteRun) : run.failures.length = run.failed := by
  rw [failures, List.length_filterMap_eq_countP, failed]
  refine List.countP_congr fun result _ => ?_
  cases result.verdict <;> simp [Except.isOk, Except.toBool]

theorem exists_tally_summary (style : Style) (root : String) (run : SuiteRun) :
    ∃ before, run.summary style root = before ++ [tally style run.passed run.failed] := by
  have hPassed : run.results.length - run.failed = run.passed := by
    rw [← passed_add_failed, Nat.add_sub_cancel]
  rw [summary, length_failures, tally]
  by_cases hNone : run.failed = 0
  · rw [if_pos hNone, if_pos hNone, ← passed_add_failed, hNone, Nat.add_zero]
    exact ⟨[""], rfl⟩
  · rw [if_neg hNone, if_neg hNone, hPassed, passed_add_failed]
    exact ⟨_, (List.append_assoc _ [""] _).symm⟩

/-- Where cases are run, their report ends with the counts. -/
theorem exists_tally {run : SuiteRun} (style : Style) (root : String) (h : run.results ≠ []) :
    ∃ before, run.lines style root = before ++ [tally style run.passed run.failed] := by
  obtain ⟨before, hSummary⟩ := run.exists_tally_summary style root
  cases run with
  | noFiles => exact absurd rfl h
  | single result =>
      rw [lines, hSummary]
      exact ⟨_ :: before, rfl⟩
  | noMatch available unmatched => exact absurd rfl h
  | ran available unmatched sections =>
      rw [lines, hSummary, ← List.append_assoc]
      exact ⟨_, rfl⟩

end SuiteRun

/-- A run of the cases in a directory. Each case file, at any depth, is found once, in the
category with the path of its directory, and there is nothing else in the categories. The
files that are run are those in the categories that are requested, each of them once, and
in an order that does not depend on that of the requests. A file is good exactly if a case can
be read in it and all is as the case demands. The exit code is zero exactly if there are results
and all are good, and one otherwise, and the report ends with how many are good and how many
are not. -/
theorem CommandLine.CasesRequest.run_requested {disk : Disk} {request : CasesRequest}
    {entries : List (String × Entry)} (read : CaseReader) (style : Style)
    (hRoot : disk request.path = .ok (.directory entries))
    (hProper : (Entry.directory entries).Proper) (hRun : request.listOnly = false) :
    let root := Entry.directory entries
    let suite := Suite.discover root
    let run := SuiteRun.start disk read request.path request.categories
    let report := request.run disk style read
    (∀ category file, (∃ files, (category, files) ∈ suite.entries ∧ file ∈ files) ↔
      file.IsIn root ∧ category = file.directory) ∧
    (∀ category files, (category, files) ∈ suite.entries → files ≠ []) ∧
    (suite.files.map CaseFile.path).Nodup ∧
    (∃ files : List CaseFile, run.results = files.map (CaseFile.run read) ∧
      (files.map CaseFile.path).Nodup ∧
      ∀ file, file ∈ files ↔
        file.IsIn root ∧ Suite.Requested request.categories file.directory) ∧
    (∀ file : CaseFile, (file.run read).verdict = .ok () ↔
      ∃ text c, file.entry.text = .ok text ∧ read text = .ok c ∧ c.IsMet) ∧
    (∀ requests, (∀ r, r ∈ requests ↔ r ∈ request.categories) →
      (SuiteRun.start disk read request.path requests).results = run.results) ∧
    (report.exitCode = 0 ∨ report.exitCode = 1) ∧
    (report.exitCode = 0 ↔
      run.results ≠ [] ∧ ∀ result ∈ run.results, result.verdict = .ok ()) ∧
    run.passed + run.failed = run.results.length ∧
    (run.results ≠ [] → ∃ before,
      report.errors = before ++ SuiteRun.tally style run.passed run.failed ++ "\n") := by
  intro root suite run report
  have hStart (requests : List String) :
      SuiteRun.start disk read request.path requests = SuiteRun.ofSuite read suite requests := by
    rw [SuiteRun.start, hRoot]
    rfl
  have hResults (requests : List String) :
      (SuiteRun.start disk read request.path requests).results =
        (suite.select requests).suite.files.map (CaseFile.run read) := by
    rw [hStart, SuiteRun.results_ofSuite]
  have hSome (category : String) (files : List CaseFile)
      (hMember : (category, files) ∈ suite.entries) : files ≠ [] :=
    (Suite.mem_discover.mp hMember).2
  have hReport : report = ⟨run.exitCode, "", unlines (run.lines style request.path)⟩ := by
    change CasesRequest.run disk style request read = _
    rw [CasesRequest.run, hRun]
    rfl
  refine ⟨fun category file => ⟨?_, ?_⟩, hSome, Suite.paths_files_discover_nodup hProper,
    ⟨_, hResults request.categories, Suite.paths_files_select_nodup hProper _,
      fun file => Suite.mem_files_select hProper⟩, fun file => file.verdict_run_eq_ok_iff,
    fun requests hSame => ?_, ?_, ?_, run.passed_add_failed, fun hSome => ?_⟩
  · rintro ⟨files, hMember, hFile⟩
    obtain ⟨hIn, rfl⟩ := (Suite.mem_of_mem_discover hMember).mp hFile
    exact ⟨hIn, CaseFile.category_of_proper hProper hIn⟩
  · rintro ⟨hIn, rfl⟩
    rw [← CaseFile.category_of_proper hProper hIn]
    exact Suite.exists_mem_discover hIn
  · rw [hResults, suite.select_congr hSame, ← hResults]
  · rw [hReport]
    exact run.exitCode_eq_or
  · rw [hReport]
    refine SuiteRun.exitCode_eq_zero_iff fun available unmatched sections hRan => ?_
    change SuiteRun.start disk read request.path request.categories = _ at hRan
    change (SuiteRun.start disk read request.path request.categories).results ≠ []
    rw [hStart] at hRan ⊢
    exact SuiteRun.results_ne_nil_of_ran hSome hRan
  · obtain ⟨before, hLines⟩ := SuiteRun.exists_tally style request.path hSome
    rw [hReport]
    change ∃ before, unlines (run.lines style request.path) = _
    rw [hLines, unlines, List.map_append, String.join_append]
    exact ⟨unlines before, by simp [unlines, String.append_assoc]⟩

/-- The number zero, read as such, with an output that is expected. -/
theorem Case.isMet_zero_iff (expected : String) :
    ({ type := "int", expectOutput := some expected } : Case).IsMet ↔
      Text.trimmed expected = "0" := by
  have hCompiles : compile "int" .empty = .ok ⟨.named "int", .empty⟩ :=
    compile_empty (by decide +kernel)
  have hName : BuiltIn.ofName? "int" = some .int := rfl
  have hRead : (Schema.named "int").read .empty .nil = .fits (.ofValue (.number 0)) :=
    Schema.decode_builtIn .nil hName
  have hWritten : Tree.ofText "nil" = .ok .nil := by decide
  have hMet := holds_iff_metBy (c := { type := "int", expectOutput := some expected }) rfl
    hCompiles hWritten
  rw [hRead] at hMet
  refine holds_iff_isMet.symm.trans (hMet.trans ?_)
  constructor
  · rintro ⟨hOutput, -⟩
    exact (hOutput expected rfl).symm
  · intro hSame
    refine ⟨fun other hOther => ?_, ?_, fun _ _ => rfl, List.forall_mem_nil _⟩
    · obtain rfl : expected = other := Option.some_inj.mp hOther
      exact hSame.symm
    · rintro flag ⟨⟩

/-- A case of the number zero, with the output that is expected. -/
def zeroCase (expected : String) : String :=
  "type = \"int\"\nexpect_output = \"" ++ expected ++ "\"\n"

/-- A directory with a case that is not met, and one below with a case that is. -/
def wrongAndRight : List (String × Entry) :=
  [("wrong.test.toml", .file (zeroCase "1").toUTF8),
    ("lists", .directory
      [("notes.txt", .unreadable .notText), ("right.test.toml", .file (zeroCase "0").toUTF8)])]

theorem verdict_run_zeroCase {file : CaseFile}
    (h : file.entry.text.toOption ∈ [some (zeroCase "1"), some (zeroCase "0")]) :
    (file.run Case.ofText).verdict = .ok () ↔
      file.entry.text.toOption = some (zeroCase "0") := by
  have hWrong : Case.ofText (zeroCase "1") = .ok { type := "int", expectOutput := some "1" } := by
    decide +kernel
  have hRight : Case.ofText (zeroCase "0") = .ok { type := "int", expectOutput := some "0" } := by
    decide +kernel
  rw [CaseFile.verdict_run_eq_ok_iff]
  simp only [List.mem_cons, List.not_mem_nil, or_false, toOption_eq_some_iff] at h ⊢
  constructor
  · rintro ⟨text, c, hText, hCase, hMet⟩
    rcases h with hSame | hSame
    · cases hSame.symm.trans hText
      cases hWrong.symm.trans hCase
      exact absurd ((Case.isMet_zero_iff "1").mp hMet) (by decide)
    · exact hSame
  · intro hSame
    exact ⟨_, _, hSame, hRight, (Case.isMet_zero_iff "0").mpr (by decide)⟩

/-- Where all files have one of the two cases, those with the second are good, and the others
are bad. -/
theorem counts_zeroCases {run : SuiteRun} {files : List CaseFile} {passed failed : Nat}
    (hFiles : run.results = files.map (CaseFile.run Case.ofText))
    (hTexts : ∀ result ∈ run.results,
      result.file.entry.text.toOption ∈ [some (zeroCase "1"), some (zeroCase "0")])
    (hRight : (run.results.countP fun result =>
      result.file.entry.text.toOption = some (zeroCase "0")) = passed)
    (hLength : run.results.length = passed + failed) :
    run.passed = passed ∧ run.failed = failed := by
  have hPassed : run.passed = passed := by
    rw [← hRight, SuiteRun.passed]
    refine List.countP_congr fun result hResult => ?_
    have hText := hTexts result hResult
    rw [hFiles] at hResult
    obtain ⟨file, -, rfl⟩ := List.mem_map.mp hResult
    rw [file.file_run] at hText ⊢
    rw [SuiteRun.isOk_iff, verdict_run_zeroCase hText, decide_eq_true_iff]
  have hCounts := run.passed_add_failed
  omega

/-- A case that is met and one that is not: both of them, and then the one that is asked for
again and again. -/
theorem CommandLine.CasesRequest.run_requested_twice :
    let disk : Disk := fun _ => .ok (.directory wrongAndRight)
    let start := SuiteRun.start disk Case.ofText "cases"
    let all : CasesRequest := { path := "cases" }
    let lists : CasesRequest := { path := "cases", categories := ["lists/", "lists", "lists"] }
    ((start []).results.map (·.file.path) =
        [["wrong.test.toml"], ["lists", "right.test.toml"]] ∧
      (all.run disk ⟨false⟩ Case.ofText).exitCode = 1 ∧
      ∃ before, (all.run disk ⟨false⟩ Case.ofText).errors =
        before ++ "test result: FAILED. 1 passed, 1 failed (of 2)" ++ "\n") ∧
    (start lists.categories).results.map (·.file.path) = [["lists", "right.test.toml"]] ∧
      (start ["lists", "lists/"]).results = (start lists.categories).results ∧
      (lists.run disk ⟨false⟩ Case.ofText).exitCode = 0 ∧
      ∃ before, (lists.run disk ⟨false⟩ Case.ofText).errors =
        before ++ "test result: ok. 1 passed, 0 failed" ++ "\n" := by
  intro disk start all lists
  have hProper : (Entry.directory wrongAndRight).Proper := by
    refine .directory (by decide) (by decide) ?_
    simp only [wrongAndRight, List.forall_mem_cons]
    refine ⟨.file _, .directory (by decide) (by decide) ?_, by simp⟩
    simp only [List.forall_mem_cons]
    exact ⟨.unreadable _, .file _, by simp⟩
  constructor
  · obtain ⟨-, -, -, ⟨files, hFiles, -⟩, -, -, hCode, hZero, -, hTally⟩ :=
      @CasesRequest.run_requested disk all _ Case.ofText ⟨false⟩ rfl hProper rfl
    let run := start []
    have hPaths : run.results.map (·.file.path) =
        [["wrong.test.toml"], ["lists", "right.test.toml"]] := by decide +kernel
    have hLength : run.results.length = 2 := by
      rw [← List.length_map, hPaths]
      rfl
    obtain ⟨hPassed, hFailed⟩ : run.passed = 1 ∧ run.failed = 1 :=
      counts_zeroCases hFiles (by decide +kernel) (by decide +kernel) hLength
    obtain ⟨before, hErrors⟩ := hTally (List.ne_nil_of_length_eq_add_one hLength)
    change _ = before ++ SuiteRun.tally ⟨false⟩ run.passed run.failed ++ "\n" at hErrors
    rw [hPassed, hFailed] at hErrors
    refine ⟨hPaths, hCode.resolve_left fun hNone => ?_, before, hErrors⟩
    have hAll := (SuiteRun.passed_eq_length_iff run).mpr (hZero.mp hNone).2
    omega
  · obtain ⟨-, -, -, ⟨files, hFiles, -⟩, -, hOrder, -, hZero, -, hTally⟩ :=
      @CasesRequest.run_requested disk lists _ Case.ofText ⟨false⟩ rfl hProper rfl
    let run := start lists.categories
    have hPaths : run.results.map (·.file.path) = [["lists", "right.test.toml"]] := by
      decide +kernel
    have hLength : run.results.length = 1 := by
      rw [← List.length_map, hPaths]
      rfl
    obtain ⟨hPassed, hFailed⟩ : run.passed = 1 ∧ run.failed = 0 :=
      counts_zeroCases hFiles (by decide +kernel) (by decide +kernel) hLength
    have hSome : run.results ≠ [] := List.ne_nil_of_length_eq_add_one hLength
    obtain ⟨before, hErrors⟩ := hTally hSome
    change _ = before ++ SuiteRun.tally ⟨false⟩ run.passed run.failed ++ "\n" at hErrors
    rw [hPassed, hFailed] at hErrors
    exact ⟨hPaths, hOrder _ (by simp [lists, or_comm]),
      hZero.mpr ⟨hSome, (SuiteRun.passed_eq_length_iff run).mp (by omega)⟩, before, hErrors⟩

end TreeSchema
