import TreeSchema.Case.Suite
import TreeSchema.Text.Escape

/-! Reports about runs of cases, as lines of text. -/
namespace TreeSchema

/-- What a highlighted word tells. -/
inductive Tone where
  | good
  | bad
  | heading
  deriving DecidableEq, Repr

def Tone.code : Tone → String
  | good => "32"
  | bad => "31"
  | heading => "1"

/-- Whether and how reports are highlighted. -/
structure Style where
  colored : Bool
  deriving DecidableEq, Repr

/-- A text in a tone. -/
def Style.paint (style : Style) (tone : Tone) (text : String) : String :=
  if style.colored then Text.rendered tone.code text else text

/-- How a category is called. The files of the directory itself have none. -/
def categoryLabel (category : String) : String :=
  if category = "" then "(root)" else category

namespace CaseResult

/-- How a case is called: by its description, or by the name of its file. -/
def label (result : CaseResult) : String :=
  match result.description with
  | some description => description
  | none =>
      let name := result.file.name
      if isCaseName name then String.ofList (name.toList.take (name.length - caseSuffix.length))
      else "?"

def line (style : Style) (result : CaseResult) : String :=
  let mark :=
    match result.verdict with
    | .ok () => style.paint .good "PASS"
    | .error _ => style.paint .bad "FAIL"
  s!"  {mark}  {result.label}"

end CaseResult

def CaseSection.lines (style : Style) (part : CaseSection) : List String :=
  "" :: style.paint .heading (categoryLabel part.category) :: part.results.map (·.line style)

namespace SuiteRun

/-- The path of a file that was run, as it is shown, where `root` is the path of
the run. -/
def shownPath (root : String) (run : SuiteRun) (file : CaseFile) : String :=
  match run with
  | single _ => root
  | _ =>
      let start := if root.toList.getLast? = some '/' then root else root ++ "/"
      start ++ String.intercalate "/" file.path

/-- The lines about a failure: where it is, and the reason further in. -/
def failureLines (path : String) (failure : CaseFailure) : List String :=
  ["", s!"  --- {path} ---"] ++ (Text.lines failure.message).map ("  " ++ ·)

/-- The warnings about requests that are for no category. -/
def warnings (available unmatched : List String) : List String :=
  let known := String.intercalate ", " (available.map categoryLabel)
  unmatched.map fun request => s!"warning: category '{request}' not found (available: {known})"

/-- The lines about all failures and the counts of cases. -/
def summary (style : Style) (root : String) (run : SuiteRun) : List String :=
  let total := run.results.length
  let failed := run.failures.length
  if failed = 0 then
    let mark := style.paint .good "ok"
    ["", s!"test result: {mark}. {total} passed, 0 failed"]
  else
    let mark := style.paint .bad "FAILED"
    ["", "failures:"] ++
    run.failures.flatMap (fun (result, failure) =>
      failureLines (shownPath root run result.file) failure) ++
    ["", s!"test result: {mark}. {total - failed} passed, {failed} failed (of {total})"]

def lines (style : Style) (root : String) (run : SuiteRun) : List String :=
  match run with
  | noFiles => [s!"no .test.toml files found in {root}"]
  | single result => result.line style :: summary style root run
  | noMatch available unmatched =>
      warnings available unmatched ++ ["no matching categories found"]
  | ran available unmatched sections =>
      warnings available unmatched ++ sections.flatMap (·.lines style) ++ summary style root run

end SuiteRun

def categoryLines (disk : Disk) (path : String) : List String :=
  match disk path with
  | .error _ => [s!"no .test.toml files found in {path}"]
  | .ok root =>
      if root.isFile then ["(single file, no categories)"]
      else
        match (Suite.discover root).entries with
        | [] => [s!"no .test.toml files found in {path}"]
        | categories =>
            "available categories:" :: categories.map fun (category, files) =>
              s!"  {categoryLabel category} ({files.length} cases)"

end TreeSchema
