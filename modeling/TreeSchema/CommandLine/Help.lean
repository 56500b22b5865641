import TreeSchema.CommandLine.Invocation

/-! What the program says about itself. -/
namespace TreeSchema.CommandLine

def purpose : String := "Check binary trees against type descriptions"

def versionLine : String := "treetype 0.1.0"

def HelpTopic.lines : HelpTopic → List String
  | program =>
      [purpose, "", "Usage: treetype [OPTIONS] <COMMAND>", "", "Commands:",
        "  check  Match a tree literal against a type description",
        "  test   Run .test.toml case files",
        "  help   Print this message or the help of the given subcommand(s)", "", "Options:",
        "      --no-color  Disable colored error output",
        "  -h, --help      Print help",
        "  -V, --version   Print version"]
  | check =>
      ["Match a tree literal against a type description", "",
        "Usage: treetype check [OPTIONS] <TREE> [TYPE]", "", "Arguments:",
        "  <TREE>  Tree literal, e.g. \"<nil.<nil.nil>>\"",
        "  [TYPE]  Type description (empty matches anything) [default: ]", "", "Options:",
        "      --atoms <FILE>      TOML file of name = \"type\" atom definitions. Repeatable",
        "      --atom <NAME=TYPE>  Inline atom definition. Repeatable; overrides atoms files",
        "      --schema            Print the compiled type and exit",
        "  -q, --quiet             Don't print the converted tree (just report errors)",
        "      --no-color          Disable colored error output",
        "  -h, --help              Print help"]
  | test =>
      ["Run .test.toml case files", "", "Usage: treetype test [OPTIONS] <PATH>", "", "Arguments:",
        "  <PATH>  Path to a .test.toml file or directory containing them", "", "Options:",
        "  -c, --category <CATEGORY>  Run only cases in these categories. Repeatable",
        "      --list-categories      List available categories and exit",
        "      --no-color             Disable colored error output",
        "  -h, --help                 Print help"]
  | help =>
      ["Print this message or the help of the given subcommand(s)", "",
        "Usage: treetype help [COMMAND]...", "", "Arguments:",
        "  [COMMAND]...  Print help for the subcommand(s)"]

end TreeSchema.CommandLine
