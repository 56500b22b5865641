import TreeSchema.CommandLine.Arguments
import TreeSchema.Definitions
import TreeSchema.Text.Escape

/-! What the program is asked to do. -/
namespace TreeSchema.CommandLine

/-- Read a tree by a description. -/
structure CheckRequest where
  tree : String
  type : String := ""
  files : List String := []
  /-- Definitions on the command line. -/
  inline : List (String × String) := []
  schemaOnly : Bool := false
  quiet : Bool := false
  deriving DecidableEq, Repr

/-- Run the cases of a path, or list their categories. -/
structure CasesRequest where
  path : String
  categories : List String := []
  listOnly : Bool := false
  deriving DecidableEq, Repr

/-- The help for the program or for one of its commands. -/
inductive HelpTopic where
  | program
  | check
  | test
  | help
  deriving DecidableEq, Repr

inductive Request where
  | check (request : CheckRequest)
  | test (request : CasesRequest)
  | help (topic : HelpTopic)
  | version
  deriving DecidableEq, Repr

structure Invocation where
  request : Request
  colored : Bool
  deriving DecidableEq, Repr

def commandNames : List String := ["check", "test", "help"]

/-- Whether an argument looks like an option. -/
def isHyphenated (argument : String) : Bool :=
  argument.toList.head? = some '-'

/-- Without a command, `check` is meant. The command is looked for in the first
argument that does not look like an option. -/
def insertDefault (arguments : List String) : List String :=
  match arguments.find? fun argument => !isHyphenated argument with
  | some first => if commandNames.contains first then arguments else "check" :: arguments
  | none => arguments

namespace Options

def noColor : OptionSpec := { long := "no-color" }
def help : OptionSpec := { long := "help", short := some 'h', kind := .help }
def version : OptionSpec := { long := "version", short := some 'V', kind := .version }
def atoms : OptionSpec := { long := "atoms", kind := .value "FILE" }
def schema : OptionSpec := { long := "schema" }
def quiet : OptionSpec := { long := "quiet", short := some 'q' }
def listCategories : OptionSpec := { long := "list-categories" }
def category : OptionSpec :=
  { long := "category", short := some 'c', kind := .value "CATEGORY" }

/-- Definitions on the command line are looked at as they are taken up. -/
def atom : OptionSpec where
  long := "atom"
  kind := .value "NAME=TYPE"
  complaint text :=
    match parseInline text with
    | .ok _ => none
    | .error e => some e.message

end Options

open Options in
/-- What the program takes before the name of a command. -/
def programSpec : CommandSpec where
  options := [noColor, help, version]
  positionals := 0
  subcommands := commandNames

open Options in
def checkSpec : CommandSpec where
  options := [atoms, atom, schema, quiet, noColor, help]
  positionals := 2

open Options in
def testSpec : CommandSpec where
  options := [category, listCategories, noColor, help]
  positionals := 1

def CheckRequest.ofArguments (given : Arguments) : Except UsageError CheckRequest :=
  match given.positionals with
  | [] => .error .missingArguments
  | tree :: others =>
      .ok {
        tree
        type := others.head?.getD ""
        files := given.valuesOf Options.atoms.long
        inline := (given.valuesOf Options.atom.long).filterMap fun text =>
          (parseInline text).toOption
        schemaOnly := given.has Options.schema.long
        quiet := given.has Options.quiet.long }

def CasesRequest.ofArguments (given : Arguments) : Except UsageError CasesRequest :=
  match given.positionals with
  | [] => .error .missingArguments
  | path :: _ =>
      .ok {
        path
        categories := given.valuesOf Options.category.long
        listOnly := given.has Options.listCategories.long }

/-- A part of a message in quotation marks, set in yellow. -/
def quoted (text : String) : String :=
  "'" ++ Text.rendered "33" text ++ "'"

def UsageError.message : UsageError → String
  | unexpectedArgument argument => s!"unexpected argument {quoted argument} found"
  | invalidValue value option reason =>
      s!"invalid value {quoted value} for {quoted option}: {reason}"
  | missingValue option => s!"a value is required for {quoted option} but none was supplied"
  | unwantedValue value option =>
      s!"unexpected value {quoted value} for {quoted option} found; no more were expected"
  | repeated option => s!"the argument {quoted option} cannot be used multiple times"
  | unknownSubcommand name => s!"unrecognized subcommand {quoted name}"
  | missingArguments => "the following required arguments were not provided:"
  | missingSubcommand | noArguments =>
      "'treetype' requires a subcommand but one was not provided"

/-- What help is asked for by the arguments of `help`. -/
def helpTopic : List String → Except UsageError HelpTopic
  | [] => .ok .program
  | name :: others =>
      match (match name with
        | "check" => some HelpTopic.check
        | "test" => some HelpTopic.test
        | "help" => some HelpTopic.help
        | _ => none), others with
      | none, _ => .error (.unknownSubcommand name)
      | some _, other :: _ => .error (.unknownSubcommand other)
      | some topic, [] => .ok topic

/-- Read the arguments of a command, whose help is `topic`. -/
def readCommand (spec : CommandSpec) (topic : HelpTopic) (colored : Bool)
    (request : Arguments → Except UsageError Request) (arguments : List String) :
    Except UsageError Invocation :=
  match takeArguments spec false {} arguments with
  | .error (.usage error) => .error error
  | .error .help => .ok ⟨.help topic, colored⟩
  | .error .version => .ok ⟨.version, colored⟩
  | .ok (given, _) => do
      return ⟨← request given, colored && !given.has Options.noColor.long⟩

def read (arguments : List String) : Except UsageError Invocation :=
  match takeArguments programSpec false {} (insertDefault arguments) with
  | .error (.usage error) => .error error
  | .error .help => .ok ⟨.help .program, true⟩
  | .error .version => .ok ⟨.version, true⟩
  | .ok (given, none) =>
      .error (if given.switches.isEmpty then .noArguments else .missingSubcommand)
  | .ok (given, some (name, rest)) =>
      let colored := !given.has Options.noColor.long
      match name with
      | "check" =>
          readCommand checkSpec .check colored
            (fun given => (CheckRequest.ofArguments given).map .check) rest
      | "test" =>
          readCommand testSpec .test colored
            (fun given => (CasesRequest.ofArguments given).map .test) rest
      | _ => do return ⟨.help (← helpTopic rest), colored⟩

end TreeSchema.CommandLine
