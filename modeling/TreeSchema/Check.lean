import TreeSchema.CommandLine.Invocation
import TreeSchema.DefinitionFile
import TreeSchema.Reading.Path
import TreeSchema.Reading.Text
import TreeSchema.Schema.Outline
import TreeSchema.Tree.Text

/-! Reading a tree by a description, as a command. -/
namespace TreeSchema

open CommandLine (CheckRequest)

/-- Shows an error in its source. -/
abbrev Printer := Source → SyntaxError → String

/-- What is said to the user besides the result. -/
inductive Complaint where
  /-- A definition that is never used, for its name is that of a built-in type. -/
  | shadowed (name : String)
  | notLoaded (error : LoadError)
  | malformed (source : Source) (error : SyntaxError)
  | mismatch (error : NodeError)

namespace Complaint

/-- Whether a complaint stands for a failure, and not just a warning. -/
def isError : Complaint → Bool
  | shadowed _ => false
  | _ => true

def text (print : Printer) : Complaint → String
  | shadowed name =>
      s!"warning: atom '{name}' is shadowed by the built-in type and is never used\n"
  | notLoaded error => s!"error: {error.message}\n"
  | malformed source error => print source error
  | mismatch error => s!"error at {error.text}\n"

end Complaint

structure CheckRun where
  exitCode : Nat
  output : String
  complaints : List Complaint

namespace CommandLine.CheckRequest

/-- The definitions in force: those of later files come over those of earlier ones,
and those of the command line over all files. -/
def definitions (load : Loader) (request : CheckRequest) :
    Except LoadError (NameTable String) := do
  let loaded ← request.files.mapM load
  let table := loaded.foldl (fun table more => table.insertAll more.entries) NameTable.empty
  return table.insertAll request.inline

/-- Read the tree, when everything else has been read. -/
def readTree (request : CheckRequest) (compiled : Compiled) : CheckRun :=
  match Tree.ofText request.tree with
  | .error error => ⟨1, "", [.malformed ⟨"<tree>", request.tree⟩ error]⟩
  | .ok tree =>
      let outcome := compiled.schema.read compiled.definitions tree
      { exitCode := if outcome.failed then 1 else 0
        output := if request.quiet then "" else outcome.reading.text ++ "\n"
        complaints := outcome.reading.errors.map .mismatch }

/-- Compile the description with some definitions, and go on from there. -/
def runWith (request : CheckRequest) (definitions : NameTable String) : CheckRun :=
  match compile request.type definitions with
  | .error errors =>
      let among := sources request.type definitions
      ⟨1, "", errors.map fun error => .malformed (among[error.source]?.getD ⟨"", ""⟩) error⟩
  | .ok compiled =>
      if request.schemaOnly then ⟨0, compiled.schema.outlineText ++ "\n", []⟩
      else request.readTree compiled

/-- Do what the request asks. Warnings come before all other complaints. -/
def run (load : Loader) (request : CheckRequest) : CheckRun :=
  match request.definitions load with
  | .error error => ⟨1, "", [.notLoaded error]⟩
  | .ok definitions =>
      let rest := request.runWith definitions
      { rest with complaints := (shadowed definitions).map .shadowed ++ rest.complaints }

end CommandLine.CheckRequest

end TreeSchema
