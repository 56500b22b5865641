import TreeSchema.Text.Split

/-! Files and directories, held as data. -/
namespace TreeSchema

inductive FileFault where
  | missing
  | isDirectory
  | notDirectory
  | notText
  | other (reason : String)
  deriving DecidableEq, Repr

def FileFault.message : FileFault → String
  | missing => "No such file or directory (os error 2)"
  | isDirectory => "Is a directory (os error 21)"
  | notDirectory => "Not a directory (os error 20)"
  | notText => "stream did not contain valid UTF-8"
  | other reason => reason

/-- What stands at a path. -/
inductive Entry where
  | file (content : ByteArray)
  /-- A file whose content cannot be had. -/
  | unreadable (fault : FileFault)
  | directory (entries : List (String × Entry))
  deriving Inhabited

/-- What is known about the files of a machine: for each path what stands there. -/
abbrev Disk := String → Except FileFault Entry

namespace Entry

def text : Entry → Except FileFault String
  | file content =>
      match String.fromUTF8? content with
      | some text => .ok text
      | none => .error .notText
  | unreadable fault => .error fault
  | directory _ => .error .isDirectory

def isFile : Entry → Bool
  | directory _ => false
  | _ => true

/-- Follow the names of a path from `here`, whose enclosing directories are
`around`, innermost first. Above the outermost there is an empty directory. -/
def follow (around : List Entry) (here : Entry) : List String → Except FileFault Entry
  | [] => .ok here
  | name :: names =>
      match here with
      | directory entries =>
          if name = "" ∨ name = "." then follow around here names
          else if name = ".." then
            match around with
            | outer :: around => follow around outer names
            | [] => follow [] (directory []) names
          else
            match entries.lookup name with
            | some entry => follow (here :: around) entry names
            | none => .error .missing
      | _ => .error .notDirectory

/-- What stands at a path that starts in a directory. Nothing is known of absolute
paths, and the empty path leads nowhere. -/
def resolve (root : Entry) : Disk := fun path =>
  match Text.splitAt '/' path with
  | [""] => .error .missing
  | "" :: names => follow [] (directory []) names
  | names => follow [] root names

/-- Put an entry at a path of names below a directory, over what was there. -/
def put (entry : Entry) : List String → List (String × Entry) → List (String × Entry)
  | [], entries => entries
  | [name], entries => entries.filter (·.1 ≠ name) ++ [(name, entry)]
  | name :: names, entries =>
      let below :=
        match entries.lookup name with
        | some (directory below) => below
        | _ => []
      entries.filter (·.1 ≠ name) ++ [(name, directory (put entry names below))]

mutual

/-- The files at or below an entry, each with the names that lead to it. -/
def files : Entry → List (List String × Entry)
  | directory entries => filesIn entries
  | file content => [([], file content)]
  | unreadable fault => [([], unreadable fault)]

/-- The files at or below the entries of a directory. -/
def filesIn : List (String × Entry) → List (List String × Entry)
  | [] => []
  | (name, entry) :: others =>
      (entry.files.map fun (path, found) => (name :: path, found)) ++ filesIn others

end

end Entry

end TreeSchema
