import TreeSchema.NameTable
import TreeSchema.Toml.Document

/-! Settings in TOML documents. -/
namespace TreeSchema

/-- Why a document does not give the settings that are wanted. -/
inductive ConfigFault where
  | malformed
  /-- The value of this setting is of another kind. -/
  | wrongKind (name : String)
  deriving DecidableEq, Repr

def ConfigFault.message : ConfigFault → String
  | malformed => "not a TOML document\n"
  | wrongKind name => s!"unexpected kind of value for '{name}'\n"

namespace Config

def ofText (text : String) : Except ConfigFault Toml.Table :=
  match Toml.Table.ofText? text with
  | some settings => .ok settings
  | none => .error .malformed

def optional {α : Type} (settings : Toml.Table) (name : String) (read : Toml.Value → Option α) :
    Except ConfigFault (Option α) :=
  match settings.lookup name with
  | none => .ok none
  | some value =>
      match read value with
      | some a => .ok (some a)
      | none => .error (.wrongKind name)

/-- A setting with a value for when it is missing. -/
def setting {α : Type} (settings : Toml.Table) (name : String) (read : Toml.Value → Option α)
    (missing : α) : Except ConfigFault α := do
  return (← optional settings name read).getD missing

/-- All settings of a document that holds nothing but texts. -/
def texts (settings : Toml.Table) : Except ConfigFault (NameTable String) := do
  let pairs ← settings.mapM fun (name, value) =>
    match value.text? with
    | some text => .ok (name, text)
    | none => .error (.wrongKind name)
  return .ofPairs pairs

end Config

end TreeSchema
