import TreeSchema.Case.Basic
import TreeSchema.Definitions
import TreeSchema.FileTree
import TreeSchema.Reading.Path
import TreeSchema.Reading.Text
import TreeSchema.Text.Blank
import TreeSchema.Tree.Text

/-! Whether a case holds. -/
namespace TreeSchema

inductive CaseFailure where
  | unreadable (fault : FileFault)
  | malformed (fault : ConfigFault)
  /-- Everything could be read, and should not. -/
  | noSyntaxError
  | syntaxErrors (errors : List SyntaxError)
  | badTree (error : SyntaxError)
  | otherOutput (expected actual : String)
  | otherFlag (expected actual : Bool) (errors : List NodeError)
  | mismatches (errors : List NodeError)
  | noMessage (expected : String) (errors : List NodeError)

namespace CaseFailure

/-- The mismatches that were found, on lines of their own. -/
def listed : List NodeError → String
  | [] => "\n  actual errors:\n    (none)"
  | errors => "\n  actual errors:" ++ String.join (errors.map fun e => "\n    - " ++ e.text)

def message : CaseFailure → String
  | unreadable fault => s!"cannot read file: {fault.message}"
  | malformed fault => s!"TOML parse error: {fault.message}"
  | noSyntaxError => "expected syntax error, but compiling succeeded"
  | syntaxErrors errors =>
      "unexpected syntax error: " ++ String.intercalate "; " (errors.map (·.message))
  | badTree error => s!"bad tree literal: {error.message}"
  | otherOutput expected actual =>
      s!"output mismatch\n  expected: {expected}\n  actual:   {actual}"
  | otherFlag expected actual errors =>
      s!"expected has_error = {expected}, got {actual}{listed errors}"
  | mismatches errors => "unexpected match errors" ++ listed errors
  | noMessage expected errors => s!"missing error message \"{expected}\"{listed errors}"

end CaseFailure

namespace Case

/-- Whether the reading has the output that is expected. -/
def checkOutput (c : Case) (r : Reading) : Except CaseFailure Unit :=
  match c.expectOutput.map Text.trimmed with
  | none => .ok ()
  | some expected =>
      if r.text = expected then .ok () else .error (.otherOutput expected r.text)

/-- Whether the tree fits or does not, as is expected. Expected messages alone
leave it open. -/
def checkFlag (c : Case) (failed : Bool) (errors : List NodeError) : Except CaseFailure Unit :=
  match c.expectError with
  | some expected =>
      if expected = failed then .ok () else .error (.otherFlag expected failed errors)
  | none =>
      if failed && c.expectMessages.isEmpty then .error (.mismatches errors) else .ok ()

/-- Whether there are all messages that are expected. -/
def checkMessages (c : Case) (errors : List NodeError) : Except CaseFailure Unit :=
  match c.expectMessages.find? fun expected => !errors.any (·.message = expected) with
  | none => .ok ()
  | some missing => .error (.noMessage missing errors)

/-- Judge a case. What is expected of the tree is looked at only when everything
could be read, and the first disappointment decides. -/
def verdict (c : Case) : Except CaseFailure Unit :=
  match compile c.type c.definitions, c.expectSyntaxError with
  | .error _, true => .ok ()
  | .ok _, true => .error .noSyntaxError
  | .error errors, false => .error (.syntaxErrors errors)
  | .ok compiled, false => do
      let tree ← (Tree.ofText c.tree).mapError .badTree
      let outcome := compiled.schema.read compiled.definitions tree
      let errors := outcome.reading.errors
      c.checkOutput outcome.reading
      c.checkFlag outcome.failed errors
      c.checkMessages errors

end Case

end TreeSchema
