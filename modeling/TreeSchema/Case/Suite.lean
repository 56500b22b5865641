import TreeSchema.Case.Verdict

/-! Case files in a directory. Their directories are their categories. -/
namespace TreeSchema

/-- What the names of case files end in. -/
def caseSuffix : List Char := ".test.toml".toList

def isCaseName (name : String) : Bool :=
  caseSuffix.isSuffixOf name.toList

/-- A case file at a path of names below some directory. -/
structure CaseFile where
  path : List String
  entry : Entry

namespace CaseFile

def name (file : CaseFile) : String :=
  file.path.getLast?.getD ""

/-- The directory of the file as one text. Backslashes separate names too. -/
def category (file : CaseFile) : String :=
  String.ofList ((String.intercalate "/" file.path.dropLast).toList.map fun c =>
    if c = '\\' then '/' else c)

end CaseFile

/-- Case files by category, those of a category in the order of their paths. -/
abbrev Suite := NameTable (List CaseFile)

namespace Suite

/-- Whether a path comes before another or is the same. Paths are compared by their
names, one after the other. -/
def pathLe : List String → List String → Bool
  | [], _ => true
  | _ :: _, [] => false
  | name :: path, name' :: path' =>
      if name < name' then true else if name' < name then false else pathLe path path'

/-- Add a case file to its category, after those that are there. -/
def add (suite : Suite) (file : CaseFile) : Suite :=
  suite.insert file.category ((suite.get? file.category).getD [] ++ [file])

/-- Add a file at a path, if it is called like a case file. -/
def addNamed (suite : Suite) (path : List String) (entry : Entry) : Suite :=
  if path.getLast?.any isCaseName then suite.add ⟨path, entry⟩ else suite

mutual

/-- Add the case files at or below an entry, to which a path leads. -/
def collect (path : List String) : Entry → Suite → Suite
  | .directory entries, suite => collectIn path entries suite
  | .file content, suite => suite.addNamed path (.file content)
  | .unreadable fault, suite => suite.addNamed path (.unreadable fault)

/-- Add the case files at or below the entries of a directory, to which a path leads. -/
def collectIn (path : List String) : List (String × Entry) → Suite → Suite
  | [], suite => suite
  | (name, entry) :: others, suite =>
      collectIn path others (collect (path ++ [name]) entry suite)

end

/-- The case files below an entry, those of a category in the order of their paths. -/
def discover (root : Entry) : Suite :=
  (collect [] root .empty).map fun files => files.mergeSort fun a b => pathLe a.path b.path

/-- Slashes around a request do not count. -/
def trimRequest (request : String) : String :=
  String.ofList (Text.trimBy (· = '/') request.toList)

/-- Whether a request is for a category. It is also for all categories below. -/
def isFor (request category : String) : Bool :=
  category = request || (request ++ "/").toList.isPrefixOf category.toList

/-- The categories that were asked for, and the requests that are for none. -/
structure Selection where
  suite : Suite := .empty
  unmatched : List String := []

/-- Take up a category if a request is for it, and note that it is for one. -/
def takeFor (request : String) (taken : Suite × Bool) (category : String × List CaseFile) :
    Suite × Bool :=
  if isFor request category.1 then (taken.1.insert category.1 category.2, true) else taken

/-- Go through all categories for one request. -/
def Selection.add (all : Suite) (selection : Selection) (request : String) : Selection :=
  let request := trimRequest request
  let (suite, found) := all.entries.foldl (takeFor request) (selection.suite, false)
  if found then { selection with suite }
  else { suite, unmatched := selection.unmatched ++ [request] }

/-- What some requests select. Without requests that is everything. -/
def select (suite : Suite) (requests : List String) : Selection :=
  if requests.isEmpty then { suite } else requests.foldl (Selection.add suite) {}

end Suite

/-- What became of a case file. -/
structure CaseResult where
  file : CaseFile
  description : Option String
  verdict : Except CaseFailure Unit

/-- Reads the case in a case file. -/
abbrev CaseReader := String → Except ConfigFault Case

def CaseFile.run (read : CaseReader) (file : CaseFile) : CaseResult :=
  match file.entry.text with
  | .error fault => ⟨file, none, .error (.unreadable fault)⟩
  | .ok text =>
      match read text with
      | .error fault => ⟨file, none, .error (.malformed fault)⟩
      | .ok c => ⟨file, c.description, c.verdict⟩

/-- A category that was run. -/
structure CaseSection where
  category : String
  results : List CaseResult

/-- What a run of cases came to. -/
inductive SuiteRun where
  | noFiles
  /-- A file that was asked for by its path. -/
  | single (result : CaseResult)
  /-- No request is for a category that there is. -/
  | noMatch (available unmatched : List String)
  | ran (available unmatched : List String) (sections : List CaseSection)

namespace SuiteRun

def ofSuite (read : CaseReader) (suite : Suite) (requests : List String) : SuiteRun :=
  if suite.entries.isEmpty then noFiles
  else
    let selection := suite.select requests
    if selection.suite.entries.isEmpty then noMatch suite.names selection.unmatched
    else
      ran suite.names selection.unmatched
        (selection.suite.entries.map fun (category, files) =>
          ⟨category, files.map (CaseFile.run read)⟩)

/-- Run the cases of a path: those of a directory as requested, or a single file
whatever is requested. -/
def start (disk : Disk) (read : CaseReader) (path : String) (requests : List String) : SuiteRun :=
  match disk path with
  | .error _ => noFiles
  | .ok root =>
      if root.isFile then single (CaseFile.run read ⟨Text.splitAt '/' path, root⟩)
      else ofSuite read (Suite.discover root) requests

def results : SuiteRun → List CaseResult
  | single result => [result]
  | ran _ _ sections => sections.flatMap (·.results)
  | noFiles | noMatch .. => []

/-- The results that are failures, with the reasons. -/
def failures (run : SuiteRun) : List (CaseResult × CaseFailure) :=
  run.results.filterMap fun result =>
    match result.verdict with
    | .error failure => some (result, failure)
    | .ok () => none

/-- Where there is nothing to run the exit code is one. Otherwise the failures decide. -/
def exitCode (run : SuiteRun) : Nat :=
  match run with
  | noFiles | noMatch .. => 1
  | single _ | ran .. => if run.failures.length = 0 then 0 else 1

end SuiteRun

end TreeSchema
