import TreeSchema.Text.Split

/-! Taking the arguments of a command apart into options and positional
arguments. Long options take a value after `=` or as the next argument; short
ones can stand together, and the last of them can have its value attached. -/
namespace TreeSchema.CommandLine

inductive OptionKind where
  | switch
  /-- Takes a value, which is called `placeholder` where the option is shown. -/
  | value (placeholder : String)
  | help
  | version
  deriving DecidableEq, Repr

structure OptionSpec where
  long : String
  short : Option Char := none
  kind : OptionKind := .switch
  /-- What is wrong with a value, if something is. -/
  complaint : String → Option String := fun _ => none

def OptionSpec.shown (o : OptionSpec) : String :=
  match o.kind with
  | .value placeholder => s!"--{o.long} <{placeholder}>"
  | _ => "--" ++ o.long

structure CommandSpec where
  options : List OptionSpec
  positionals : Nat
  /-- The names that end the command's own arguments. -/
  subcommands : List String := []

inductive UsageError where
  | unexpectedArgument (argument : String)
  | invalidValue (value option reason : String)
  | missingValue (option : String)
  | unwantedValue (value option : String)
  | repeated (option : String)
  | unknownSubcommand (name : String)
  | missingArguments
  | missingSubcommand
  | noArguments
  deriving DecidableEq, Repr

inductive Interruption where
  | usage (error : UsageError)
  | help
  | version
  deriving DecidableEq, Repr

/-- The arguments of a command, each kind in its order. -/
structure Arguments where
  switches : List String := []
  values : List (String × String) := []
  positionals : List String := []
  deriving DecidableEq, Repr

namespace Arguments

def has (given : Arguments) (long : String) : Bool :=
  given.switches.contains long

def valuesOf (given : Arguments) (long : String) : List String :=
  given.values.filterMap fun (name, value) => if name = long then some value else none

end Arguments

structure Progress where
  given : Arguments := {}
  /-- An option whose value is still to come, or has not been looked at yet. -/
  pending : Option (OptionSpec × Option String) := none

namespace Progress

/-- Whether the next argument can be the value of an option. -/
def awaits (p : Progress) : Bool :=
  match p.pending with
  | some (_, none) => true
  | _ => false

def record (p : Progress) (o : OptionSpec) (value : String) : Except Interruption Progress :=
  match o.complaint value with
  | some reason => .error (.usage (.invalidValue value o.shown reason))
  | none => .ok { p with given.values := p.given.values ++ [(o.long, value)] }

def settle (p : Progress) : Except Interruption Progress :=
  match p.pending with
  | none => .ok p
  | some (o, none) => .error (.usage (.missingValue o.shown))
  | some (o, some value) => { p with pending := none }.record o value

/-- Take up an option, with its value if that is attached. -/
def takeOption (p : Progress) (o : OptionSpec) (attached : Option String) :
    Except Interruption Progress := do
  let p ← p.settle
  match o.kind, attached with
  | .value _, some value => p.record o value
  | .value _, none => return { p with pending := some (o, none) }
  | .switch, _ =>
      if p.given.has o.long then throw (.usage (.repeated o.shown))
      else return { p with given.switches := p.given.switches ++ [o.long] }
  | .help, _ => throw .help
  | .version, _ => throw .version

/-- Take up a long option, given without its two hyphens. -/
def takeLong (command : CommandSpec) (p : Progress) (argument : List Char) :
    Except Interruption Progress :=
  let (name, value) := argument.span (· ≠ '=')
  let name := String.ofList name
  match command.options.find? (·.long = name), value with
  | none, _ => .error (.usage (.unexpectedArgument ("--" ++ name)))
  | some o, [] => p.takeOption o none
  | some o, _ :: value =>
      let value := String.ofList value
      match o.kind with
      | .value _ => p.takeOption o (some value)
      | _ => .error (.usage (.unwantedValue value o.shown))

/-- Take up short options that stand together, without their hyphen. -/
def takeShort (command : CommandSpec) (p : Progress) : List Char → Except Interruption Progress
  | [] => .ok p
  | c :: rest =>
      match command.options.find? (·.short = some c) with
      | none => .error (.usage (.unexpectedArgument ("-" ++ c.toString)))
      | some o =>
          match o.kind, rest with
          | .value _, [] => p.takeOption o none
          | .value _, '=' :: value | .value _, value => p.takeOption o (some (String.ofList value))
          | _, rest => do takeShort command (← p.takeOption o none) rest

def takePositional (command : CommandSpec) (afterHyphens : Bool) (p : Progress)
    (argument : String) : Except Interruption Progress :=
  if p.given.positionals.length < command.positionals then do
    let p ← p.settle
    return { p with given.positionals := p.given.positionals ++ [argument] }
  else if command.subcommands.isEmpty ||
      (afterHyphens && command.subcommands.contains argument) then
    .error (.usage (.unexpectedArgument argument))
  else .error (.usage (.unknownSubcommand argument))

end Progress

/-- The arguments of a command, and a subcommand with those that follow it. Two
hyphens alone make all later arguments positional. -/
def takeArguments (command : CommandSpec) (afterHyphens : Bool) (p : Progress) :
    List String → Except Interruption (Arguments × Option (String × List String))
  | [] => do return ((← p.settle).given, none)
  | argument :: rest =>
      if afterHyphens then do
        takeArguments command true (← p.takePositional command true argument) rest
      else if !p.awaits && command.subcommands.contains argument then do
        return ((← p.settle).given, some (argument, rest))
      else
        match argument.toList, p.pending with
        | ['-', '-'], _ => takeArguments command true p rest
        | '-' :: '-' :: long, _ => do
            takeArguments command false (← p.takeLong command long) rest
        | '-' :: c :: short, _ => do
            takeArguments command false (← p.takeShort command (c :: short)) rest
        | _, some (o, none) =>
            takeArguments command false { p with pending := some (o, some argument) } rest
        | _, _ => do
            takeArguments command false (← p.takePositional command false argument) rest

end TreeSchema.CommandLine
