import TreeSchema.Config

/-! Cases: a tree, a description, and what is expected when the one is read by
the other. -/
namespace TreeSchema

structure Case where
  /-- For people who read reports. -/
  description : Option String := none
  type : String := ""
  tree : String := "nil"
  /-- Blanks around it do not count. -/
  expectOutput : Option String := none
  /-- Whether anything should not fit. -/
  expectError : Option Bool := none
  /-- Messages that should be among those of the mismatches. -/
  expectMessages : List String := []
  /-- Whether the type or a definition should be malformed. -/
  expectSyntaxError : Bool := false
  definitions : NameTable String := .empty
  deriving DecidableEq

namespace Case

open Toml (Value)

/-- The case that some settings describe. Unknown settings are ignored. -/
def ofSettings (settings : Toml.Table) : Except ConfigFault Case := do
  return {
    description := ← Config.optional settings "description" Value.text?
    type := ← Config.setting settings "type" Value.text? ""
    tree := ← Config.setting settings "tree" Value.text? "nil"
    expectOutput := ← Config.optional settings "expect_output" Value.text?
    expectError := ← Config.optional settings "expect_error" Value.boolean?
    expectMessages := ← Config.setting settings "expect_messages" Value.texts? []
    expectSyntaxError := ← Config.setting settings "expect_syntax_error" Value.boolean? false
    definitions := .ofPairs (← Config.setting settings "atoms" Value.namedTexts? []) }

def ofText (text : String) : Except ConfigFault Case :=
  Config.ofText text >>= ofSettings

end Case

end TreeSchema
