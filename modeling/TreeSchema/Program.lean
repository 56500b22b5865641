import TreeSchema.Case.Report
import TreeSchema.Check
import TreeSchema.CommandLine.Help
import TreeSchema.Snippet

/-! The program as a function: from its arguments and what is on the disk to what
it writes and how it ends. -/
namespace TreeSchema

open CommandLine

/-- What a run of the program leaves behind. -/
structure Report where
  exitCode : Nat
  output : String
  errors : String
  deriving DecidableEq, Repr

/-- Whether errors are shown in colors: never, or where they are shown in a terminal that
takes them. -/
inductive ColorChoice where
  | never
  | auto
  deriving DecidableEq, Repr

/-- What the program relies on: the files that there are, readers of what is in them, and how
an error is shown. -/
structure Surroundings where
  disk : Disk
  load : Loader := loadDefinitions disk
  readCase : CaseReader := Case.ofText
  print : ColorChoice → Printer := fun _ => Snippet.text

/-- Lines, each with a line feed after it. -/
def unlines (lines : List String) : String :=
  String.join (lines.map (· ++ "\n"))

namespace CommandLine

/-- Do what the request asks. -/
def CasesRequest.run (disk : Disk) (style : Style) (request : CasesRequest)
    (read : CaseReader := Case.ofText) : Report :=
  if request.listOnly then ⟨0, "", unlines (categoryLines disk request.path)⟩
  else
    let run := SuiteRun.start disk read request.path request.categories
    ⟨run.exitCode, "", unlines (run.lines style request.path)⟩

/-- What is written about arguments that are refused. It is plain text, whatever
escape sequences the arguments bring along. -/
def UsageError.report : UsageError → Report
  | noArguments => ⟨2, "", unlines HelpTopic.program.lines⟩
  | error => ⟨2, "", Text.plain (unlines ["error: " ++ error.message, "",
      "For more information, try " ++ quoted ("--" ++ Options.help.long) ++ "."])⟩

/-- The paths at which an invocation reads. -/
def Invocation.paths (invocation : Invocation) : List String :=
  match invocation.request with
  | .check request => request.files
  | .test request => [request.path]
  | .help _ | .version => []

def Invocation.colorChoice (invocation : Invocation) : ColorChoice :=
  if invocation.colored then .auto else .never

def Invocation.run (around : Surroundings) (invocation : Invocation) : Report :=
  match invocation.request with
  | .check request =>
      let run := request.run around.load
      let print := around.print invocation.colorChoice
      ⟨run.exitCode, run.output, String.join (run.complaints.map (Complaint.text print))⟩
  | .test request => request.run around.disk ⟨invocation.colored⟩ around.readCase
  | .help topic => ⟨0, unlines topic.lines, ""⟩
  | .version => ⟨0, unlines [versionLine], ""⟩

end CommandLine

/-- Standard error is not taken to be a terminal. So errors are shown without colors, whatever
the choice. -/
def runProgram (disk : Disk) (arguments : List String) : Report :=
  match CommandLine.read arguments with
  | .ok invocation => invocation.run { disk }
  | .error error => error.report

end TreeSchema
