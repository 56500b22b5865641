import TreeSchema.Matching
import TreeSchema.Schema.Description
import TreeSchema.Schema.Text
import TreeSchema.Source

/-! Definitions as texts: a type description together with descriptions for the
names in it. -/
namespace TreeSchema

/-- A description that could not be read. Without a name it is the main one. -/
structure DefinitionError where
  name : Option String
  error : SyntaxError
  deriving DecidableEq, Repr

def DefinitionError.message (e : DefinitionError) : String :=
  match e.name with
  | some name => s!"in definition of '{name}': {e.error.message}"
  | none => e.error.message

/-- Read named descriptions in their order, up to the first that is wrong. -/
def Definitions.ofTexts (texts : List (String × String)) : Except DefinitionError Definitions := do
  let pairs ← texts.mapM fun (name, text) =>
    ((Schema.ofText text).map (Prod.mk name)).mapError (DefinitionError.mk (some name))
  return .ofPairs pairs

/-- Read a tree by a description. The description is read before the definitions. -/
def readByText (description : String) (definitions : List (String × String)) (t : Tree) :
    Except DefinitionError Outcome := do
  let schema ← (Schema.ofText description).mapError (DefinitionError.mk none)
  return schema.read (← Definitions.ofTexts definitions) t

/-- A description and its definitions, all read. -/
structure Compiled where
  schema : Schema
  definitions : Definitions

/-- What compiling leaves behind: all files, and what was read of them or the errors. -/
structure Compilation where
  files : List Source
  result : Except (List SyntaxError) Compiled

/-- What has come of some sources so far. The number of a source is its place among the files. -/
structure Compiling where
  files : List Source
  definitions : Definitions := .empty
  errors : List SyntaxError := []

/-- Add the source of a definition to the files, and read it. An error does not keep later
sources from being read. -/
def Compiling.addDefinition (state : Compiling) : String × String → Compiling
  | (name, text) =>
      let files := state.files ++ [⟨s!"<atom {name}>", text⟩]
      match Schema.ofSource text state.files.length with
      | .ok schema => { state with files, definitions := state.definitions.insert name schema }
      | .error e => { state with files, errors := state.errors ++ [e] }

/-- Read a description and all its definitions, in the order of their names, as sources that
come after some files and are added to them. Every error is reported, each with the number of
its source. -/
def compileAfter (files : List Source) (description : String) (definitions : NameTable String) :
    Compilation :=
  let main := Schema.ofSource description files.length
  let start : Compiling := {
    files := files ++ [⟨"<type>", description⟩]
    errors :=
      match main with
      | .ok _ => []
      | .error e => [e] }
  let all := definitions.entries.foldl Compiling.addDefinition start
  { files := all.files
    result :=
      match main, all.errors with
      | .ok schema, [] => .ok ⟨schema, all.definitions⟩
      | _, errors => .error errors }

/-- Read a description and all its definitions, where there are no other sources. -/
def compile (description : String) (definitions : NameTable String) :
    Except (List SyntaxError) Compiled :=
  (compileAfter [] description definitions).result

/-- The sources that are read when a description and its definitions are compiled. -/
def sources (description : String) (definitions : NameTable String) : List Source :=
  (compileAfter [] description definitions).files

/-- The defined names that can never be reached, since a built-in type has the name. -/
def shadowed {α : Type} (definitions : NameTable α) : List String :=
  definitions.names.filter BuiltIn.names.contains

/-- What is wrong with a definition that is given in one piece. -/
inductive InlineError where
  | noEquals (text : String)
  | badName (name : String)
  deriving DecidableEq, Repr

def InlineError.message : InlineError → String
  | noEquals text => s!"expected NAME=TYPE, got '{text}'"
  | badName name => s!"invalid atom name '{name}'"

/-- Take a definition `NAME=TYPE` apart at its first `=`. -/
def parseInline (text : String) : Except InlineError (String × String) :=
  match text.toList.span (· != '=') with
  | (_, []) => .error (.noEquals text)
  | (before, _ :: after) =>
      let name := Text.trim before
      if name ≠ [] && name.all isNameChar then
        .ok (String.ofList name, String.ofList (Text.trim after))
      else .error (.badName (String.ofList name))

end TreeSchema
