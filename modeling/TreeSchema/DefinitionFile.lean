import TreeSchema.Config
import TreeSchema.FileTree

/-! Files of definitions: a TOML document that gives descriptions by name. -/
namespace TreeSchema

inductive LoadError where
  | unreadable (path : String) (fault : FileFault)
  | malformed (path : String) (fault : ConfigFault)
  deriving DecidableEq, Repr

def LoadError.message : LoadError → String
  | unreadable path fault => s!"cannot read '{path}': {fault.message}"
  | malformed path fault => s!"cannot parse '{path}': {fault.message}"

/-- Gives the definitions in the file at a path. -/
abbrev Loader := String → Except LoadError (NameTable String)

def loadDefinitions (disk : Disk) : Loader := fun path => do
  let text ← (disk path >>= Entry.text).mapError (LoadError.unreadable path)
  (Config.ofText text >>= Config.texts).mapError (LoadError.malformed path)

end TreeSchema
